import Mathlib.Tactic
import Damaris.Lib.StepSystem
import Damaris.Buffer.RefCount

/-!
# Lending a region to the server

What a write does to the handles of two processes. The client allocates a
region and gives its ownership up before it sends the message; the server links
the region anew, gives it to a block and takes the ownership. Afterwards the
server has one handle for each region it owns, in a block.
-/
set_option linter.unusedSectionVars false

namespace Damaris.Buffer
namespace Heap

/-! ## The client's handles -/

/-- The handles of `Client::Write` and of the calls it makes: the block's, the
local of `Allocate`, the temporary that the buffer returns, and the local copy. -/
inductive Local
  | block
  | ds
  | temporary
  | copy
  deriving DecidableEq

section Client

variable {R : Type*} [DecidableEq R] {h : Heap Local R} {g : R}

/-- From `Variable::Allocate` to the two sends. -/
def lendOps (g : R) (size : ℕ) : List (Operation Local R) :=
  [.default .block, .default .ds, .construct .temporary (some g) size, .assign .ds .temporary,
    .destroy .temporary, .assign .block .ds, .destroy .ds, .copy .copy .block, .lose .block]

/-- The end of `Client::Write`: the copy and the block, detached by now, go away. -/
def leaveOps : List (Operation Local R) := [.destroy .copy, .destroy .block]

/-- The client's two handles on a region that it has lent. -/
def Lent (h : Heap Local R) (g : R) : Prop :=
  h.live = {.block, .copy} ∧ ∃ m n c, h.obj .block = .linked g m c ∧ h.obj .copy = .linked g n c ∧
    h.count c = 2 ∧ h.owns c = false

theorem run_lendOps (hlive : h.live = ∅) (g : R) (size : ℕ) :
    ∃ h', StepSystem.run step h (lendOps g size) = some h' ∧ h'.Lent g ∧
      h'.deallocated = h.deallocated := by
  simp [StepSystem.run, lendOps, step, Enabled, apply, unlink, swap, setOwnership, create,
    newControl, setObj, setCount, setOwns, remove, attached, DataSpace.control, hlive, Lent]
  decide

/-- Nothing is deallocated by the client. -/
theorem run_leaveOps (hl : h.Lent g) :
    ∃ h', StepSystem.run step h leaveOps = some h' ∧ h'.live = ∅ ∧
      h'.deallocated = h.deallocated := by
  obtain ⟨hlive, m, n, c, hblock, hcopy, hcount, howns⟩ := hl
  simp [StepSystem.run, leaveOps, step, Enabled, apply, unlink, setObj, setCount, remove, hlive,
    hblock, hcopy, hcount, howns]
  decide

/-- A client between two calls, or at the end of one. -/
def Idle (h : Heap Local R) : Prop := h.live = ∅ ∨ ∃ g, h.Lent g

/-- A call starts only once the last one has returned. -/
theorem idle_of_lend {h' : Heap Local R} {size : ℕ} (hi : h.Idle)
    (hr : StepSystem.run step h (lendOps g size) = some h') :
    h'.Idle ∧ h'.deallocated = h.deallocated := by
  rcases hi with hlive | ⟨g', hlive, -⟩
  · obtain ⟨m, hm, hl, hlog⟩ := run_lendOps hlive g size
    obtain rfl := Option.some.inj (hm.symm.trans hr)
    exact ⟨.inr ⟨g, hl⟩, hlog⟩
  · obtain ⟨m, hm, -⟩ := StepSystem.run_cons_eq_some.mp hr
    simp [step, Enabled, hlive] at hm

theorem idle_of_leave {h' : Heap Local R} (hi : h.Idle)
    (hr : StepSystem.run step h leaveOps = some h') : h'.Idle ∧ h'.deallocated = h.deallocated := by
  rcases hi with hlive | ⟨g, hl⟩
  · obtain ⟨m, hm, -⟩ := StepSystem.run_cons_eq_some.mp hr
    simp [step, Enabled, hlive] at hm
  · obtain ⟨m, hm, hempty, hlog⟩ := run_leaveOps hl
    obtain rfl := Option.some.inj (hm.symm.trans hr)
    exact ⟨.inl hempty, hlog⟩

end Client

/-! ## The server's handles -/

section Server

variable {R : Type*} [DecidableEq R] {h h' : Heap (Option ℕ) R} {g : R} {n : ℕ}

/-- `Variable::Retrieve`, with its local handle `none` and that of the block. -/
def retrieveOps (n : ℕ) (g : R) (size : ℕ) : List (Operation (Option ℕ) R) :=
  [.default none, .default (some n), .link none (some g) size, .assign (some n) none,
    .lose (some n), .destroy none]

/-- `Server::OnWrite` takes the ownership once it has the block. -/
def adoptOps (n : ℕ) (g : R) (size : ℕ) : List (Operation (Option ℕ) R) :=
  retrieveOps n g size ++ [.gain (some n)]

/-- Handle `o` is the only one of the region and owns it. -/
def Owner (h : Heap (Option ℕ) R) (o : Option ℕ) (g : R) : Prop :=
  ∃ c, h.Holds o g c ∧ h.linked g = {o} ∧ h.owns c = true

theorem Owner.unique {o o' : Option ℕ} (h₁ : h.Owner o g) (h₂ : h.Owner o' g) : o = o' := by
  obtain ⟨c, -, hl, -⟩ := h₁
  obtain ⟨c', -, hl', -⟩ := h₂
  exact Finset.singleton_inj.mp (hl.symm.trans hl')

theorem Owner.region_unique {o : Option ℕ} {g' : R} (h₁ : h.Owner o g) (h₂ : h.Owner o g') :
    g = g' := by
  obtain ⟨c, hc, -, -⟩ := h₁
  obtain ⟨c', hc', -, -⟩ := h₂
  exact (hc.unique hc').1

/-- The regions of several handles, in order: each is owned by one of them, and
they are as different as the handles are. -/
theorem mem_regions {os : List (Option ℕ)} {gs : List R} (hf : List.Forall₂ h.Owner os gs) :
    ∀ g, g ∈ gs ↔ ∃ o ∈ os, h.Owner o g := by
  induction hf with
  | nil => simp
  | @cons o g' os gs hog hf ih =>
    intro g
    rw [List.mem_cons, ih]
    constructor
    · rintro (rfl | ⟨o', ho', howns⟩)
      · exact ⟨o, List.mem_cons_self, hog⟩
      · exact ⟨o', List.mem_cons_of_mem _ ho', howns⟩
    · rintro ⟨o', ho', howns⟩
      rcases List.mem_cons.mp ho' with rfl | ho'
      · exact .inl (howns.region_unique hog)
      · exact .inr ⟨o', ho', howns⟩

theorem nodup_regions {os : List (Option ℕ)} {gs : List R} (hf : List.Forall₂ h.Owner os gs)
    (hnodup : os.Nodup) : gs.Nodup := by
  induction hf with
  | nil => exact List.nodup_nil
  | @cons o g' os gs hog hf ih =>
    obtain ⟨hnot, hnodup⟩ := List.nodup_cons.mp hnodup
    refine List.nodup_cons.mpr ⟨fun hmem => ?_, ih hnodup⟩
    obtain ⟨o', ho', howns⟩ := (mem_regions hf g').mp hmem
    exact hnot (hog.unique howns ▸ ho')

/-- Between two messages every handle of the server owns its region. -/
structure Settled (h : Heap (Option ℕ) R) : Prop where
  counted : h.Counted
  owner : ∀ o ∈ h.live, ∃ g, h.Owner o g

theorem Settled.linked_eq_empty (hs : h.Settled) (hfree : ∀ o, ¬ h.Owner o g) : h.linked g = ∅ := by
  by_contra hne
  obtain ⟨o, ho⟩ := Finset.nonempty_iff_ne_empty.mpr hne
  obtain ⟨c, hc⟩ := mem_linked.mp ho
  obtain ⟨g', hg'⟩ := hs.owner o hc.1
  obtain ⟨c', hc', -, -⟩ := id hg'
  obtain rfl := (hc.unique hc').1
  exact hfree o hg'

theorem run_adoptOps (hds : none ∉ h.live) (hn : some n ∉ h.live) (g : R) (size : ℕ) :
    ∃ h', StepSystem.run step h (adoptOps n g size) = some h' ∧ h'.live = insert (some n) h.live ∧
      h'.next = h.next + 3 ∧ h'.deallocated = h.deallocated ∧
      (∀ x, x ≠ none → x ≠ some n → h'.obj x = h.obj x) ∧
      h'.obj (some n) = .linked g size (h.next + 2) ∧ h'.count (h.next + 2) = 1 ∧
      h'.owns (h.next + 2) = true ∧
      ∀ c < h.next, h'.count c = h.count c ∧ h'.owns c = h.owns c := by
  simp [StepSystem.run, adoptOps, retrieveOps, step, Enabled, apply, unlink, swap, setOwnership,
    create, newControl, setObj, setCount, setOwns, remove, attached, DataSpace.control, hds, hn,
    Function.update_apply]
  refine ⟨?_, fun x hx hx' => by simp [hx, hx'], fun c hc => ?_⟩
  · rw [Finset.erase_insert_of_ne (by simp), Finset.erase_insert hds]
  · have h₂ : c ≠ h.next + 1 + 1 := by omega
    have h₁ : c ≠ h.next + 1 := by omega
    simp [h₂, h₁, hc.ne]

/-- A region that nobody on the server holds becomes the new block's. -/
theorem adopt_spec (hs : h.Settled) (hds : none ∉ h.live) (hn : some n ∉ h.live)
    (hfree : ∀ o, ¬ h.Owner o g) (size : ℕ) :
    ∃ h', StepSystem.run step h (adoptOps n g size) = some h' ∧ h'.Settled ∧
      h'.live = insert (some n) h.live ∧ h'.deallocated = h.deallocated ∧
      ∀ o g', h'.Owner o g' ↔ h.Owner o g' ∨ (o = some n ∧ g' = g) := by
  obtain ⟨h', hrun, hlive, hnext, hlog, hobj, hnew, hcount, howns, hold⟩ := run_adoptOps hds hn g size
  have hempty := hs.linked_eq_empty hfree
  have hholds : ∀ x g' c, h'.Holds x g' c ↔
      h.Holds x g' c ∨ (x = some n ∧ g' = g ∧ c = h.next + 2) := by
    intro x g' c
    by_cases hx : x = some n
    · subst hx
      simp [Holds, hnew, hlive, hn, eq_comm]
    · by_cases hx' : x = none
      · subst hx'
        simp [Holds, hlive, hds]
      · simp [Holds, hlive, hx, hobj x hx' hx]
  have hcounted : h'.Counted := by
    let mid : Heap (Option ℕ) R := { h with next := h.next + 2 }
    have hmid : mid.Counted :=
      hs.counted.congr (fun _ _ _ => Iff.rfl) (fun _ _ _ _ => rfl) (Nat.le_add_right _ _)
    exact hmid.found hempty hholds hcount (fun x g c hx => (hold c (hs.counted.fresh hx)).1)
      (by rw [hnext]; exact Nat.lt_succ_self _)
  have hlinked : ∀ g', g' ≠ g → h'.linked g' = h.linked g' := by
    intro g' hne
    ext x
    simp only [mem_linked, hholds, hne, false_and, and_false, or_false]
  have hnone : ∀ x c, ¬ h.Holds x g c := fun x c hx => by
    have hmem : x ∈ h.linked g := mem_linked.mpr ⟨c, hx⟩
    rw [hempty] at hmem
    exact absurd hmem (Finset.notMem_empty _)
  have hself : h'.linked g = {some n} := by
    ext x
    simp [mem_linked, hholds, hnone]
  have howner : ∀ o g', h'.Owner o g' ↔ h.Owner o g' ∨ (o = some n ∧ g' = g) := by
    intro o g'
    constructor
    · rintro ⟨c, hc, hl, ho⟩
      rcases (hholds o g' c).mp hc with hc | ⟨rfl, rfl, -⟩
      · have hne : g' ≠ g := by
          rintro rfl
          exact hnone o c hc
        rw [hlinked g' hne] at hl
        rw [(hold c (hs.counted.fresh hc)).2] at ho
        exact .inl ⟨c, hc, hl, ho⟩
      · exact .inr ⟨rfl, rfl⟩
    · rintro (⟨c, hc, hl, ho⟩ | ⟨rfl, rfl⟩)
      · have hne : g' ≠ g := by
          rintro rfl
          exact hfree o ⟨c, hc, hl, ho⟩
        exact ⟨c, (hholds o g' c).mpr (.inl hc), (hlinked g' hne).trans hl,
          (hold c (hs.counted.fresh hc)).2.trans ho⟩
      · exact ⟨h.next + 2, (hholds _ _ _).mpr (.inr ⟨rfl, rfl, rfl⟩), hself, howns⟩
  refine ⟨h', hrun, ⟨hcounted, fun o ho => ?_⟩, hlive, hlog, howner⟩
  rw [hlive] at ho
  rcases Finset.mem_insert.mp ho with rfl | ho
  · exact ⟨g, (howner _ _).mpr (.inr ⟨rfl, rfl⟩)⟩
  · obtain ⟨g', hg'⟩ := hs.owner o ho
    exact ⟨g', (howner _ _).mpr (.inl hg')⟩

/-- A block that goes away takes its region with it. -/
theorem destroy_owner (hs : h.Settled) {o : Option ℕ} (ho : h.Owner o g) :
    ∃ h', h.step (.destroy o) = some h' ∧ h'.Settled ∧ h'.live = h.live.erase o ∧
      h'.deallocated = h.deallocated ++ [g] ∧ ∀ x g', h'.Owner x g' ↔ h.Owner x g' ∧ x ≠ o := by
  obtain ⟨c, hc, hl, hown⟩ := id ho
  have heq := unlink_of_sole hs.counted hc hl
  have hstep : h.step (.destroy o) = some ((h.unlink o).remove o) := if_pos hc.1
  have hholds : ∀ x g' c', ((h.unlink o).remove o).Holds x g' c' ↔ h.Holds x g' c' ∧ x ≠ o := by
    intro x g' c'
    rw [holds_remove]
    by_cases hx : x = o
    · simp [hx]
    · rw [holds_unlink_of_ne hx]
  have howns : ((h.unlink o).remove o).owns = h.owns := by
    rw [heq]
    rfl
  have hlinked : ∀ g', ((h.unlink o).remove o).linked g' = (h.linked g').erase o := by
    intro g'
    ext x
    simp only [mem_linked, hholds, Finset.mem_erase]
    tauto
  have howner : ∀ x g', ((h.unlink o).remove o).Owner x g' ↔ h.Owner x g' ∧ x ≠ o := by
    intro x g'
    constructor
    · rintro ⟨c', hc', hl', hown'⟩
      obtain ⟨hx, hne⟩ := (hholds x g' c').mp hc'
      rw [howns] at hown'
      have hg : g' ≠ g := by
        rintro rfl
        rw [hlinked, hl] at hl'
        simp at hl'
      have hnot : o ∉ h.linked g' := fun hm => by
        obtain ⟨c'', hc''⟩ := mem_linked.mp hm
        exact hg (hc''.unique hc).1
      rw [hlinked, Finset.erase_eq_of_notMem hnot] at hl'
      exact ⟨⟨c', hx, hl', hown'⟩, hne⟩
    · rintro ⟨⟨c', hc', hl', hown'⟩, hne⟩
      refine ⟨c', (hholds x g' c').mpr ⟨hc', hne⟩, ?_, howns ▸ hown'⟩
      rw [hlinked, hl', Finset.erase_eq_of_notMem (by simpa using hne.symm)]
  have hlive : ((h.unlink o).remove o).live = h.live.erase o := by
    rw [remove, mem_live_unlink]
  refine ⟨_, hstep, ⟨(destroy_spec hs.counted hc.1).1, fun x hx => ?_⟩, hlive, ?_, howner⟩
  · rw [hlive] at hx
    obtain ⟨hne, hx⟩ := Finset.mem_erase.mp hx
    obtain ⟨g', hg'⟩ := hs.owner x hx
    exact ⟨g', (howner x g').mpr ⟨hg', hne⟩⟩
  · rw [heq, hown]
    rfl

/-- Several blocks go away, one after another. -/
theorem destroy_owners {os : List (Option ℕ)} (hnodup : os.Nodup) :
    ∀ {h : Heap (Option ℕ) R}, h.Settled → (∀ o ∈ os, o ∈ h.live) →
      ∃ h' gs, StepSystem.run step h (os.map .destroy) = some h' ∧ h'.Settled ∧
        (∀ x, x ∈ h'.live ↔ x ∈ h.live ∧ x ∉ os) ∧ h'.deallocated = h.deallocated ++ gs ∧
        List.Forall₂ h.Owner os gs ∧ ∀ x g, h'.Owner x g ↔ h.Owner x g ∧ x ∉ os := by
  induction os with
  | nil =>
    intro h hs _
    exact ⟨h, [], rfl, hs, by simp, by simp, .nil, by simp⟩
  | cons o os ih =>
    intro h hs hlive
    obtain ⟨hnot, hnodup⟩ := List.nodup_cons.mp hnodup
    obtain ⟨g, hg⟩ := hs.owner o (hlive o List.mem_cons_self)
    obtain ⟨m, hstep, hm, hmlive, hmlog, hmowner⟩ := destroy_owner hs hg
    have hrest : ∀ x ∈ os, x ∈ m.live := by
      intro x hx
      rw [hmlive, Finset.mem_erase]
      exact ⟨fun he => hnot (he ▸ hx), hlive x (List.mem_cons_of_mem _ hx)⟩
    obtain ⟨h', gs, hrun, hs', hlive', hlog, hgs, howner⟩ := ih hnodup hm hrest
    refine ⟨h', g :: gs, StepSystem.run_cons_eq_some.mpr ⟨m, hstep, hrun⟩, hs', fun x => ?_, ?_,
      .cons hg (hgs.imp fun x g' hx => ((hmowner x g').mp hx).1), fun x g' => ?_⟩
    · rw [hlive', hmlive, Finset.mem_erase, List.mem_cons]
      tauto
    · rw [hlog, hmlog, List.append_assoc]
      rfl
    · rw [howner, hmowner, List.mem_cons]
      tauto

end Server
end Heap
end Damaris.Buffer
