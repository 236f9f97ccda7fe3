import Mathlib.Tactic
import Damaris.Lib.CombiningTree

/-!
# Relaying one sequence down a tree

The root of a tree takes items in an order of its own; every node passes each
item it takes on to all of its children, through one first-in first-out pipe
for each child. All nodes then take the items in the root's order, at their
own pace.
-/
namespace Relay

variable {ι α : Type*} (T : ParentTree ι)

/-- What each node has taken, oldest first, and what is on its way to it from
its parent. -/
structure State (ι α : Type*) where
  taken : ι → List α
  pipe : ι → List α

/-- A child has taken, or is about to take, what its parent has taken. -/
def Flows (s : State ι α) : Prop := ∀ q, q ≠ T.root → s.taken (T.parent q) = s.taken q ++ s.pipe q

/-- Node `p` takes the item `x` and passes it on. Where the root takes its items
from is left open. -/
structure Passes [DecidableEq ι] (s s' : State ι α) (p : ι) (x : α) : Prop where
  taken : s'.taken = Function.update s.taken p (s.taken p ++ [x])
  own : p ≠ T.root → s.pipe p = x :: s'.pipe p
  children : ∀ q ∈ T.children p, s'.pipe q = s.pipe q ++ [x]
  others : ∀ q, q ≠ T.root → q ≠ p → q ∉ T.children p → s'.pipe q = s.pipe q

/-- The state after node `p` has taken `x`. -/
def State.pass [DecidableEq ι] (s : State ι α) (p : ι) (x : α) : State ι α where
  taken := Function.update s.taken p (s.taken p ++ [x])
  pipe q := if q = p then (s.pipe p).tail else if q ∈ T.children p then s.pipe q ++ [x] else s.pipe q

variable {T} {s s' : State ι α}

@[simp] theorem pass_taken [DecidableEq ι] (s : State ι α) (p : ι) (x : α) :
    (s.pass T p x).taken = Function.update s.taken p (s.taken p ++ [x]) := rfl

theorem pass_pipe [DecidableEq ι] (s : State ι α) (p : ι) (x : α) (q : ι) :
    (s.pass T p x).pipe q = if q = p then (s.pipe p).tail
      else if q ∈ T.children p then s.pipe q ++ [x] else s.pipe q := rfl

/-- A node takes the head of its pipe; the root may take any item. -/
theorem passes_pass [DecidableEq ι] {p : ι} {x : α} (h : p ≠ T.root → (s.pipe p).head? = some x) :
    Passes T s (s.pass T p x) p x := by
  have hself : p ∉ T.children p := fun hm =>
    T.parent_ne (T.mem_children.mp hm).1 (T.mem_children.mp hm).2
  refine ⟨rfl, fun hp => ?_, fun q hq => ?_, fun q _ hne hq => ?_⟩
  · rw [pass_pipe, if_pos rfl]
    exact (List.cons_head?_tail (h hp)).symm
  · have hne : q ≠ p := fun he => hself (he ▸ hq)
    rw [pass_pipe, if_neg hne, if_pos hq]
  · rw [pass_pipe, if_neg hne, if_neg hq]

theorem Flows.congr (h : Flows T s) (htaken : s'.taken = s.taken)
    (hpipe : ∀ q, q ≠ T.root → s'.pipe q = s.pipe q) : Flows T s' := by
  intro q hq
  rw [htaken, hpipe q hq]
  exact h q hq

theorem Flows.pass [DecidableEq ι] {p : ι} {x : α} (h : Flows T s) (hp : Passes T s s' p x) :
    Flows T s' := by
  intro q hq
  have hflow := h q hq
  have hself : T.parent q ≠ q := T.parent_ne hq
  rw [hp.taken]
  by_cases hqp : q = p
  · subst hqp
    rw [Function.update_of_ne hself, Function.update_self, hflow, hp.own hq]
    simp
  · rw [Function.update_of_ne hqp]
    by_cases hchild : q ∈ T.children p
    · obtain ⟨-, rfl⟩ := T.mem_children.mp hchild
      rw [Function.update_self, hp.children q hchild, hflow, List.append_assoc]
    · have hother : T.parent q ≠ p := fun he => hchild (T.mem_children.mpr ⟨hq, he⟩)
      rw [Function.update_of_ne hother, hp.others q hq hqp hchild, hflow]

/-- No node is ahead of the root, or has taken anything in another order. -/
theorem Flows.le_root (h : Flows T s) (p : ι) : s.taken p <+: s.taken T.root := by
  refine T.top_down (P := fun p => s.taken p <+: s.taken T.root) List.prefix_rfl ?_ p
  intro q hq hparent
  have hstep : s.taken q <+: s.taken (T.parent q) := ⟨s.pipe q, (h q hq).symm⟩
  exact hstep.trans hparent

/-- Of two nodes one has taken what the other has, in the same order, and maybe more. -/
theorem Flows.comparable (h : Flows T s) (p q : ι) :
    s.taken p <+: s.taken q ∨ s.taken q <+: s.taken p :=
  List.prefix_or_prefix_of_prefix (h.le_root p) (h.le_root q)

/-- What two nodes take at the same place of their orders is the same. -/
theorem Flows.agree (h : Flows T s) {p q : ι} {j : ℕ} {x y : α} (hx : (s.taken p)[j]? = some x)
    (hy : (s.taken q)[j]? = some y) : x = y := by
  have hat : ∀ {p : ι} {x : α}, (s.taken p)[j]? = some x → (s.taken T.root)[j]? = some x := by
    intro p x hx
    obtain ⟨hj, rfl⟩ := List.getElem?_eq_some_iff.mp hx
    exact List.prefix_iff_getElem?.mp (h.le_root p) j hj
  exact Option.some.inj ((hat hx).symm.trans (hat hy))

/-- When nothing is on its way to the nodes that are furthest behind, no node is behind. -/
theorem Flows.level [Nonempty ι] (h : Flows T s)
    (hlast : ∀ q, q ≠ T.root → (∀ p, (s.taken q).length ≤ (s.taken p).length) → s.pipe q = [])
    (p : ι) : s.taken p = s.taken T.root := by
  obtain ⟨q, hq⟩ : ∃ q, ∀ p, (s.taken q).length ≤ (s.taken p).length := by
    obtain ⟨q, -, hmin⟩ := WellFounded.has_min (measure fun q => (s.taken q).length).wf Set.univ
      Set.univ_nonempty
    exact ⟨q, fun p => not_lt.mp (hmin p (Set.mem_univ p))⟩
  -- a node that is furthest behind has taken as much as its parent, which is so too
  have hroot : ∀ q, (∀ p, (s.taken q).length ≤ (s.taken p).length) →
      (s.taken q).length = (s.taken T.root).length := by
    refine T.top_down (P := fun q => (∀ p, (s.taken q).length ≤ (s.taken p).length) →
      (s.taken q).length = (s.taken T.root).length) (fun _ => rfl) ?_
    intro q hq ih hmin
    have hsame : s.taken (T.parent q) = s.taken q := by
      rw [h q hq, hlast q hq hmin, List.append_nil]
    rw [hsame] at ih
    exact ih hmin
  refine (h.le_root p).eq_of_length_le ?_
  rw [← hroot q hq]
  exact hq p

end Relay
