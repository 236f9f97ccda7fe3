import Mathlib.Tactic
import Damaris.Lib.StepSystem
import Damaris.Buffer.DataSpace

/-!
# Reference counting of `DataSpace`

The invariant behind the class: the handles linked to one region share one
control, whose count is their number. The operations that keep it, and those
that do not, are told apart exactly.
-/
set_option linter.unusedSectionVars false

namespace Damaris.Buffer
namespace Heap

variable {ι R : Type*} [DecidableEq ι] [DecidableEq R] {h h' : Heap ι R}

/-- Handle `o` is alive and linked to `g` through control `c`. -/
def Holds (h : Heap ι R) (o : ι) (g : R) (c : ℕ) : Prop :=
  o ∈ h.live ∧ ∃ n, h.obj o = .linked g n c

theorem Holds.unique {o : ι} {g g' : R} {c c' : ℕ} (h₁ : h.Holds o g c) (h₂ : h.Holds o g' c') :
    g = g' ∧ c = c' := by
  obtain ⟨-, n, hn⟩ := h₁
  obtain ⟨-, n', hn'⟩ := h₂
  rw [hn, DataSpace.linked.injEq] at hn'
  exact ⟨hn'.1, hn'.2.2⟩

/-- The live handles linked to a region. -/
def linked (h : Heap ι R) (g : R) : Finset ι := h.live.filter fun o => (h.obj o).getData = some g

theorem mem_linked {o : ι} {g : R} : o ∈ h.linked g ↔ ∃ c, h.Holds o g c := by
  rw [linked, Finset.mem_filter]
  constructor
  · rintro ⟨ho, hg⟩
    cases hobj : h.obj o with
    | unlinked n c => simp [hobj, DataSpace.getData] at hg
    | linked g' n c =>
      obtain rfl : g' = g := by simpa [hobj, DataSpace.getData] using hg
      exact ⟨c, ho, n, hobj⟩
  · rintro ⟨c, ho, n, hobj⟩
    exact ⟨ho, by simp [hobj, DataSpace.getData]⟩

/-- What a region's count promises. -/
def RefCounts (h : Heap ι R) : Prop :=
  ∀ o g c, h.Holds o g c → h.count c = (h.linked g).card

/-- A count of one leaves no other handle. -/
theorem RefCounts.sole (hr : h.RefCounts) {o : ι} {g : R} {c : ℕ} (ho : h.Holds o g c)
    (hone : h.count c = 1) : h.linked g = {o} := by
  have hcount := hr o g c ho
  obtain ⟨x, hx⟩ := Finset.card_eq_one.mp (by omega : (h.linked g).card = 1)
  have hmem : o ∈ h.linked g := mem_linked.mpr ⟨c, ho⟩
  rw [hx, Finset.mem_singleton] at hmem
  rw [hx, hmem]

/-- What a step owes its regions: `Deallocate` is called, once, for those whose
last handle went away while the ownership was set, and for no other. -/
def Releases (h h' : Heap ι R) : Prop :=
  ∀ g, ((∃ o c, h.Holds o g c ∧ h.owns c = true) ∧ h'.linked g = ∅ →
      h'.deallocated.count g = h.deallocated.count g + 1) ∧
    (¬ ((∃ o c, h.Holds o g c ∧ h.owns c = true) ∧ h'.linked g = ∅) →
      h'.deallocated.count g = h.deallocated.count g)

/-- The invariant: one control for each region, and its count is right. -/
structure Counted (h : Heap ι R) : Prop where
  fresh : ∀ {o g c}, h.Holds o g c → c < h.next
  same : ∀ {o g c o' g' c'}, h.Holds o g c → h.Holds o' g' c' → (g = g' ↔ c = c')
  counted : h.RefCounts

theorem counted_initial : (initial : Heap ι R).Counted := by
  have hnone : ∀ {o : ι} {g : R} {c : ℕ}, ¬ (initial : Heap ι R).Holds o g c :=
    fun h => absurd h.1 (Finset.notMem_empty _)
  exact ⟨fun h => absurd h hnone, fun h => absurd h hnone, fun _ _ _ h => absurd h hnone⟩

/-! ## What changes the invariant: who holds what -/

/-- Only the held controls matter. -/
theorem Counted.congr (hc : h.Counted) (hholds : ∀ o g c, h'.Holds o g c ↔ h.Holds o g c)
    (hcount : ∀ o g c, h.Holds o g c → h'.count c = h.count c) (hnext : h.next ≤ h'.next) :
    h'.Counted := by
  have hlinked : ∀ g, h'.linked g = h.linked g := fun g => by
    ext o
    simp only [mem_linked, hholds]
  refine ⟨fun ho => ?_, fun ho ho' => ?_, fun o g c ho => ?_⟩
  · exact (hc.fresh ((hholds _ _ _).mp ho)).trans_le hnext
  · exact hc.same ((hholds _ _ _).mp ho) ((hholds _ _ _).mp ho')
  · have hold := (hholds o g c).mp ho
    rw [hcount o g c hold, hc.counted o g c hold, hlinked]

/-- One handle lets go of what it holds. -/
theorem Counted.drop (hc : h.Counted) {o : ι} {g₀ : R} {c₀ : ℕ} (ho : h.Holds o g₀ c₀)
    (hholds : ∀ x g c, h'.Holds x g c ↔ h.Holds x g c ∧ x ≠ o)
    (hcount₀ : h'.count c₀ = h.count c₀ - 1)
    (hcount : ∀ c, c ≠ c₀ → h'.count c = h.count c) (hnext : h.next ≤ h'.next) :
    h'.Counted := by
  have hlinked : ∀ g, h'.linked g = (h.linked g).erase o := fun g => by
    ext x
    simp only [mem_linked, hholds, Finset.mem_erase]
    tauto
  refine ⟨fun hx => ?_, fun hx hy => ?_, fun x g c hx => ?_⟩
  · exact (hc.fresh ((hholds _ _ _).mp hx).1).trans_le hnext
  · exact hc.same ((hholds _ _ _).mp hx).1 ((hholds _ _ _).mp hy).1
  · have hold := ((hholds x g c).mp hx).1
    have hcard := hc.counted x g c hold
    rw [hlinked]
    by_cases hg : g = g₀
    · subst hg
      obtain rfl := (hc.same hold ho).mp rfl
      have hmem : o ∈ h.linked g := mem_linked.mpr ⟨c, ho⟩
      have hpos := Finset.card_pos.mpr ⟨o, hmem⟩
      rw [hcount₀, hcard, Finset.card_erase_of_mem hmem]
      omega
    · have hcne : c ≠ c₀ := fun he => hg ((hc.same hold ho).mpr he)
      have hnot : o ∉ h.linked g := fun hm => by
        obtain ⟨c', hc'⟩ := mem_linked.mp hm
        exact hg (hc'.unique ho).1
      rw [hcount c hcne, hcard, Finset.erase_eq_of_notMem hnot]

/-- A handle that holds nothing takes a share of a region already linked. -/
theorem Counted.join (hc : h.Counted) {o d : ι} {g₁ : R} {c₁ : ℕ} (hd : h.Holds d g₁ c₁)
    (ho : ∀ g c, ¬ h.Holds o g c)
    (hholds : ∀ x g c, h'.Holds x g c ↔ h.Holds x g c ∨ (x = o ∧ g = g₁ ∧ c = c₁))
    (hcount₁ : h'.count c₁ = h.count c₁ + 1)
    (hcount : ∀ x g c, h.Holds x g c → c ≠ c₁ → h'.count c = h.count c) (hnext : h.next ≤ h'.next) :
    h'.Counted := by
  have hlinked : ∀ g, h'.linked g = if g = g₁ then insert o (h.linked g) else h.linked g := fun g => by
    ext x
    split <;> simp only [mem_linked, hholds, Finset.mem_insert] <;> aesop
  have hpair : ∀ {x g c}, h'.Holds x g c → ∃ y, h.Holds y g c := by
    intro x g c hx
    rcases (hholds x g c).mp hx with hx | ⟨-, rfl, rfl⟩
    · exact ⟨x, hx⟩
    · exact ⟨d, hd⟩
  refine ⟨fun hx => ?_, fun hx hy => ?_, fun x g c hx => ?_⟩
  · obtain ⟨y, hy⟩ := hpair hx
    exact (hc.fresh hy).trans_le hnext
  · obtain ⟨_, hx'⟩ := hpair hx
    obtain ⟨_, hy'⟩ := hpair hy
    exact hc.same hx' hy'
  · obtain ⟨y, hy⟩ := hpair hx
    have hcard := hc.counted y g c hy
    have hnot : o ∉ h.linked g := fun hm => by
      obtain ⟨c', hc'⟩ := mem_linked.mp hm
      exact ho g c' hc'
    rw [hlinked]
    by_cases hg : g = g₁
    · obtain rfl := (hc.same hy hd).mp hg
      rw [if_pos hg, Finset.card_insert_of_notMem hnot, hcount₁, hcard]
      omega
    · have hcne : c ≠ c₁ := fun he => hg ((hc.same hy hd).mpr he)
      rw [if_neg hg, hcount y g c hy hcne, hcard]

/-- A handle that holds nothing links a region nobody holds, under a new control. -/
theorem Counted.found (hc : h.Counted) {o : ι} {g₁ : R} (hfree : h.linked g₁ = ∅)
    (hholds : ∀ x g c, h'.Holds x g c ↔ h.Holds x g c ∨ (x = o ∧ g = g₁ ∧ c = h.next))
    (hcount₁ : h'.count h.next = 1)
    (hcount : ∀ x g c, h.Holds x g c → h'.count c = h.count c) (hnext : h.next < h'.next) :
    h'.Counted := by
  have hnone : ∀ x c, ¬ h.Holds x g₁ c := fun x c hx => by
    have hm : x ∈ h.linked g₁ := mem_linked.mpr ⟨c, hx⟩
    rw [hfree] at hm
    exact Finset.notMem_empty x hm
  have hlinked : ∀ g, h'.linked g = if g = g₁ then {o} else h.linked g := fun g => by
    ext x
    split <;> simp only [mem_linked, hholds, Finset.mem_singleton] <;> aesop
  refine ⟨fun hx => ?_, fun hx hy => ?_, fun x g c hx => ?_⟩
  · rcases (hholds _ _ _).mp hx with hx | ⟨-, -, rfl⟩
    · exact (hc.fresh hx).trans hnext
    · exact hnext
  · rcases (hholds _ _ _).mp hx with hx | ⟨-, rfl, rfl⟩ <;>
      rcases (hholds _ _ _).mp hy with hy | ⟨-, rfl, rfl⟩
    · exact hc.same hx hy
    · constructor
      · rintro rfl
        exact absurd hx (hnone _ _)
      · intro he
        exact absurd (hc.fresh hx) (he ▸ lt_irrefl _)
    · constructor
      · rintro rfl
        exact absurd hy (hnone _ _)
      · intro he
        exact absurd (hc.fresh hy) (he ▸ lt_irrefl _)
    · simp
  · rw [hlinked]
    rcases (hholds x g c).mp hx with hx | ⟨-, rfl, rfl⟩
    · have hg : g ≠ g₁ := fun he => hnone x c (he ▸ hx)
      rw [if_neg hg, hcount x g c hx, hc.counted x g c hx]
    · rw [if_pos rfl, hcount₁, Finset.card_singleton]
      rfl

/-! ## What the primitives do to who holds what -/

@[simp] theorem holds_setCount {x : ι} {g : R} {c c₀ : ℕ} {n : ℤ} :
    (h.setCount c₀ n).Holds x g c ↔ h.Holds x g c := Iff.rfl

@[simp] theorem holds_newControl {x : ι} {g : R} {c : ℕ} {n : ℤ} {b : Bool} :
    (h.newControl n b).Holds x g c ↔ h.Holds x g c := Iff.rfl

theorem holds_setObj_unlinked {o x : ι} {g : R} {c n : ℕ} {k : Option ℕ} :
    (h.setObj o (.unlinked n k)).Holds x g c ↔ h.Holds x g c ∧ x ≠ o := by
  by_cases hx : x = o
  · subst hx
    simp [Holds, setObj]
  · simp [Holds, setObj, hx]

theorem holds_setObj_linked {o x : ι} {g g₁ : R} {c c₁ n : ℕ} (ho : o ∈ h.live) :
    (h.setObj o (.linked g₁ n c₁)).Holds x g c ↔
      (h.Holds x g c ∧ x ≠ o) ∨ (x = o ∧ g = g₁ ∧ c = c₁) := by
  by_cases hx : x = o
  · subst hx
    simp [Holds, setObj, ho, eq_comm]
  · simp [Holds, setObj, hx]

theorem holds_create_unlinked {o x : ι} {g : R} {c n : ℕ} {k : Option ℕ} (ho : o ∉ h.live) :
    (h.create o (.unlinked n k)).Holds x g c ↔ h.Holds x g c := by
  by_cases hx : x = o
  · subst hx
    simp [Holds, create, ho]
  · simp [Holds, create, hx]

theorem holds_create_linked {o x : ι} {g g₁ : R} {c c₁ n : ℕ} (ho : o ∉ h.live) :
    (h.create o (.linked g₁ n c₁)).Holds x g c ↔ h.Holds x g c ∨ (x = o ∧ g = g₁ ∧ c = c₁) := by
  by_cases hx : x = o
  · subst hx
    simp [Holds, create, ho, eq_comm]
  · simp [Holds, create, hx]

theorem holds_remove {o x : ι} {g : R} {c : ℕ} :
    (h.remove o).Holds x g c ↔ h.Holds x g c ∧ x ≠ o := by
  simp [Holds, remove]
  tauto

theorem not_holds_of_unlinked {o : ι} {n : ℕ} {k : Option ℕ} (ho : h.obj o = .unlinked n k)
    (g : R) (c : ℕ) : ¬ h.Holds o g c := by
  rintro ⟨-, m, hm⟩
  rw [ho] at hm
  exact absurd hm (by simp)

/-- The last handle of a region: the region is handed back if it is owned. -/
theorem unlink_of_sole (hc : h.Counted) {o : ι} {g : R} {c : ℕ} (ho : h.Holds o g c)
    (hs : h.linked g = {o}) :
    h.unlink o = { (h.setCount c 0).setObj o (.unlinked 0 (some c)) with
      deallocated := h.deallocated ++ if h.owns c then [g] else [] } := by
  obtain ⟨n, hn⟩ := ho.2
  have hcount : h.count c = 1 := by
    rw [hc.counted o g c ho, hs, Finset.card_singleton]
    rfl
  simp [unlink, hn, setCount, hcount]

/-- With other handles left, the count drops and the address stays. -/
theorem unlink_of_shared (hc : h.Counted) {o : ι} {g : R} {c : ℕ} (ho : h.Holds o g c)
    (hs : h.linked g ≠ {o}) :
    h.unlink o = (h.setCount c (h.count c - 1)).setObj o (.linked g 0 c) := by
  obtain ⟨n, hn⟩ := ho.2
  have hcount : h.count c - 1 ≠ 0 := fun hzero =>
    hs (hc.counted.sole ho (by omega))
  simp [unlink, hn, setCount, hcount]

theorem unlink_of_unlinked {o : ι} {n : ℕ} {k : Option ℕ} (ho : h.obj o = .unlinked n k) :
    h.unlink o = h.setObj o (.unlinked 0 k) := by
  simp [unlink, ho]

theorem Releases.keep (hd : h'.deallocated = h.deallocated)
    (hl : ∀ g, (∃ o c, h.Holds o g c ∧ h.owns c = true) → h'.linked g ≠ ∅) : h.Releases h' := by
  intro g
  rw [hd]
  exact ⟨fun hg => absurd hg.2 (hl g hg.1), fun _ => rfl⟩

theorem linked_ne_empty {o : ι} {g : R} {c : ℕ} (ho : h.Holds o g c) : h.linked g ≠ ∅ :=
  Finset.nonempty_iff_ne_empty.mp ⟨o, mem_linked.mpr ⟨c, ho⟩⟩

section

variable {o : ι} {g₀ : R} {c₀ : ℕ}

/-- The last handle of a region is gone, and the region is handed back if it was owned. -/
theorem Releases.of_sole (hc : h.Counted) (ho : h.Holds o g₀ c₀) (hs : h.linked g₀ = {o})
    (hholds : ∀ x g c, h'.Holds x g c ↔ h.Holds x g c ∧ x ≠ o)
    (hlog : h'.deallocated = h.deallocated ++ if h.owns c₀ then [g₀] else []) : h.Releases h' := by
  have hempty : h'.linked g₀ = ∅ := by
    by_contra hne
    obtain ⟨x, hx⟩ := Finset.nonempty_iff_ne_empty.mpr hne
    obtain ⟨c, hxc⟩ := mem_linked.mp hx
    obtain ⟨hold, hxo⟩ := (hholds x g₀ c).mp hxc
    have hmem : x ∈ h.linked g₀ := mem_linked.mpr ⟨c, hold⟩
    rw [hs, Finset.mem_singleton] at hmem
    exact hxo hmem
  intro g
  rw [hlog]
  by_cases hg : g = g₀
  · subst hg
    constructor
    · rintro ⟨⟨x, c, hx, hown⟩, -⟩
      obtain rfl := (hc.same hx ho).mp rfl
      simp [hown]
    · intro hnot
      have hown : h.owns c₀ ≠ true := fun hown => hnot ⟨⟨o, c₀, ho, hown⟩, hempty⟩
      simp [hown]
  · constructor
    · rintro ⟨⟨x, c, hx, -⟩, hlinked⟩
      have hxo : x ≠ o := by
        rintro rfl
        exact hg (hx.unique ho).1
      exact absurd hlinked (linked_ne_empty ((hholds x g c).mpr ⟨hx, hxo⟩))
    · intro _
      split <;> simp [Ne.symm hg]

/-- A handle is gone and another one of its region is left, so nothing is handed back. -/
theorem Releases.of_shared (ho : h.Holds o g₀ c₀) (hs : h.linked g₀ ≠ {o})
    (hholds : ∀ x g c, h'.Holds x g c ↔ h.Holds x g c ∧ x ≠ o)
    (hlog : h'.deallocated = h.deallocated) : h.Releases h' := by
  refine .keep hlog ?_
  rintro g ⟨x, c, hx, -⟩
  by_cases hxo : x = o
  · subst hxo
    obtain ⟨rfl, rfl⟩ := hx.unique ho
    have hmem : x ∈ h.linked g := mem_linked.mpr ⟨c, hx⟩
    obtain ⟨y, hy, hyx⟩ := ((Finset.eq_singleton_or_nontrivial hmem).resolve_left hs).exists_ne x
    obtain ⟨c', hc'⟩ := mem_linked.mp hy
    exact linked_ne_empty ((hholds y g c').mpr ⟨hc', hyx⟩)
  · exact linked_ne_empty ((hholds x g c).mpr ⟨hx, hxo⟩)

end

/-- A handle lets go in the way `Unlink` does: whether it is then destroyed,
linked to nothing, or left as it is, makes no difference. -/
theorem letGo (hc : h.Counted) {o : ι} (hlive : o ∈ h.live)
    (hholds : ∀ x g c, h'.Holds x g c ↔ h.Holds x g c ∧ x ≠ o)
    (hcount : ∀ c < h.next, h'.count c = (h.unlink o).count c)
    (hdealloc : h'.deallocated = (h.unlink o).deallocated) (hnext : h.next ≤ h'.next) :
    h'.Counted ∧ h.Releases h' := by
  cases hobj : h.obj o with
  | unlinked n k =>
    have hnot := not_holds_of_unlinked hobj
    have hsame : ∀ x g c, h'.Holds x g c ↔ h.Holds x g c := fun x g c => by
      rw [hholds]
      exact ⟨fun hx => hx.1, fun hx => ⟨hx, fun he => hnot g c (he ▸ hx)⟩⟩
    rw [unlink_of_unlinked hobj] at hcount hdealloc
    refine ⟨hc.congr hsame (fun x g c hx => hcount c (hc.fresh hx)) hnext, .keep hdealloc ?_⟩
    rintro g ⟨x, c, hx, -⟩
    exact linked_ne_empty ((hsame x g c).mpr hx)
  | linked g₀ n c₀ =>
    have ho : h.Holds o g₀ c₀ := ⟨hlive, n, hobj⟩
    have hcounted : (h.unlink o).count = Function.update h.count c₀ (h.count c₀ - 1) := by
      by_cases hs : h.linked g₀ = {o}
      · have hone : h.count c₀ - 1 = 0 := by
          rw [hc.counted o g₀ c₀ ho, hs, Finset.card_singleton]
          rfl
        rw [unlink_of_sole hc ho hs, hone]
        rfl
      · rw [unlink_of_shared hc ho hs]
        rfl
    -- only held controls count, and those are below `next`
    have hdrop : h'.Counted := by
      let m : Heap ι R := { h' with count := Function.update h.count c₀ (h.count c₀ - 1) }
      have hholds' : ∀ x g c, m.Holds x g c ↔ h.Holds x g c ∧ x ≠ o := hholds
      have hm : m.Counted := hc.drop ho hholds' (by simp [m]) (fun c hne => by simp [m, hne]) hnext
      refine hm.congr (fun _ _ _ => Iff.rfl) (fun x g c hx => ?_) le_rfl
      rw [hcount c (hc.fresh ((hholds x g c).mp hx).1), hcounted]
    refine ⟨hdrop, ?_⟩
    by_cases hs : h.linked g₀ = {o}
    · refine .of_sole hc ho hs hholds ?_
      rw [hdealloc, unlink_of_sole hc ho hs]
    · refine .of_shared ho hs hholds ?_
      rw [hdealloc, unlink_of_shared hc ho hs]
      rfl

/-! ## Which operations keep the promise -/

/-- What a step promises: it is defined, the counts are right afterwards, and
regions are handed back exactly when they should be. -/
def Meets (h : Heap ι R) (a : Operation ι R) : Prop :=
  h.Enabled a → ∃ h', h.apply a = some h' ∧ h'.RefCounts ∧ h.Releases h'

/-- The condition under which it does. Assigning to a handle that is linked is
fine only when that handle is the last of its region, and then only if what is
assigned is unlinked or the region, another one, is not owned. `Unlink` is fine
on the last handle of a region only, and a region is linked anew only when no
other handle is linked to it. -/
def Safe (h : Heap ι R) : Operation ι R → Prop
  | .construct _ (some g) _ => h.linked g = ∅
  | .assign o d => ∀ g c, h.Holds o g c → h.linked g = {o} ∧
      ∀ g' c', h.Holds d g' c' → g ≠ g' ∧ h.owns c = false
  | .link o (some g) _ => ∀ x c, h.Holds x g c → x = o ∧ h.owns c = false
  | .unlink o => ∀ g c, h.Holds o g c → h.linked g = {o}
  | .lose o => (h.obj o).control ≠ none
  | .gain o => (h.obj o).control ≠ none
  | _ => True

section Operations

variable {o d : ι}

/-- A new handle that is not linked, with a control of its own. -/
theorem create_unlinked_spec (hc : h.Counted) (ho : o ∉ h.live) (size : ℕ) (n : ℤ) (b : Bool) :
    ((h.create o (.unlinked size (some h.next))).newControl n b).Counted ∧
      h.Releases ((h.create o (.unlinked size (some h.next))).newControl n b) := by
  have hholds : ∀ x g c, ((h.create o (.unlinked size (some h.next))).newControl n b).Holds x g c ↔
      h.Holds x g c := fun x g c => by
    rw [holds_newControl, holds_create_unlinked ho]
  refine ⟨hc.congr hholds (fun x g c hx => ?_) (Nat.le_succ _), .keep rfl ?_⟩
  · exact Function.update_of_ne (hc.fresh hx).ne _ _
  · rintro g ⟨x, c, hx, -⟩
    exact linked_ne_empty ((hholds x g c).mpr hx)

/-- A constructor with an address founds the region. -/
theorem construct_spec (hc : h.Counted) (ho : o ∉ h.live) {g : R} {size : ℕ}
    (hfree : h.linked g = ∅) :
    ((h.create o (.linked g size h.next)).newControl 1 true).Counted ∧
      h.Releases ((h.create o (.linked g size h.next)).newControl 1 true) := by
  have hholds : ∀ x g' c, ((h.create o (.linked g size h.next)).newControl 1 true).Holds x g' c ↔
      h.Holds x g' c ∨ (x = o ∧ g' = g ∧ c = h.next) := fun x g' c => by
    rw [holds_newControl, holds_create_linked ho]
  refine ⟨hc.found hfree hholds ?_ (fun x g c hx => ?_) (Nat.lt_succ_self _), .keep rfl ?_⟩
  · exact Function.update_self _ _ _
  · exact Function.update_of_ne (hc.fresh hx).ne _ _
  · rintro g ⟨x, c, hx, -⟩
    exact linked_ne_empty ((hholds x g c).mpr (.inl hx))

/-- Founding a region that already has a handle leaves two counts for it. -/
theorem construct_necessary (ho : o ∉ h.live) {g : R} {size : ℕ}
    (hcounts : ((h.create o (.linked g size h.next)).newControl 1 true).RefCounts) :
    h.linked g = ∅ := by
  set h' := (h.create o (.linked g size h.next)).newControl 1 true with hh'
  have hholds : ∀ x g' c, h'.Holds x g' c ↔ h.Holds x g' c ∨ (x = o ∧ g' = g ∧ c = h.next) :=
    fun x g' c => by rw [hh', holds_newControl, holds_create_linked ho]
  have hself : h'.Holds o g h.next := (hholds _ _ _).mpr (.inr ⟨rfl, rfl, rfl⟩)
  have hsole := hcounts.sole hself (Function.update_self _ _ _)
  by_contra hne
  obtain ⟨x, hx⟩ := Finset.nonempty_iff_ne_empty.mpr hne
  obtain ⟨c, hxc⟩ := mem_linked.mp hx
  have hmem : x ∈ h'.linked g := mem_linked.mpr ⟨c, (hholds _ _ _).mpr (.inl hxc)⟩
  rw [hsole, Finset.mem_singleton] at hmem
  exact ho (hmem ▸ hxc.1)

theorem mem_live_unlink (o : ι) : (h.unlink o).live = h.live := by
  unfold unlink
  split
  · rfl
  · simp only
    split <;> rfl

theorem next_unlink (o : ι) : (h.unlink o).next = h.next := by
  unfold unlink
  split
  · rfl
  · simp only
    split <;> rfl

/-- `Unlink` touches no other handle. -/
theorem holds_unlink_of_ne {x : ι} (hx : x ≠ o) {g : R} {c : ℕ} :
    (h.unlink o).Holds x g c ↔ h.Holds x g c := by
  have hobj : (h.unlink o).obj x = h.obj x := by
    unfold unlink
    split
    · exact Function.update_of_ne hx _ _
    · simp only
      split <;> exact Function.update_of_ne hx _ _
  rw [Holds, mem_live_unlink, hobj, Holds]

theorem destroy_spec (hc : h.Counted) (ho : o ∈ h.live) :
    ((h.unlink o).remove o).Counted ∧ h.Releases ((h.unlink o).remove o) := by
  refine letGo hc ho (fun x g c => ?_) (fun _ _ => rfl) rfl (next_unlink o).ge
  rw [holds_remove]
  by_cases hx : x = o
  · simp [hx]
  · rw [holds_unlink_of_ne hx]

/-- `Unlink` on an unlinked handle, or on the last one of its region. -/
theorem unlink_spec (hc : h.Counted) (ho : o ∈ h.live)
    (hs : ∀ g c, h.Holds o g c → h.linked g = {o}) :
    (h.unlink o).Counted ∧ h.Releases (h.unlink o) := by
  refine letGo hc ho (fun x g c => ?_) (fun _ _ => rfl) rfl (next_unlink o).ge
  by_cases hx : x = o
  · subst hx
    refine ⟨fun hxo => absurd hxo ?_, fun hxo => absurd rfl hxo.2⟩
    cases hobj : h.obj x with
    | unlinked n k =>
      rw [unlink_of_unlinked hobj, holds_setObj_unlinked]
      exact fun hx => hx.2 rfl
    | linked g₀ n c₀ =>
      have hold : h.Holds x g₀ c₀ := ⟨ho, n, hobj⟩
      rw [unlink_of_sole hc hold (hs g₀ c₀ hold)]
      intro hx
      exact ((@holds_setObj_unlinked ι R _ _ (h.setCount c₀ 0) x x g c 0 (some c₀)).mp hx).2 rfl
  · rw [holds_unlink_of_ne hx]
    exact ⟨fun hx' => ⟨hx', hx⟩, fun hx' => hx'.1⟩

/-- `Unlink` on a handle of a shared region drops the count and keeps the address. -/
theorem unlink_necessary (hc : h.Counted) (hcounts : (h.unlink o).RefCounts) {g : R} {c : ℕ}
    (ho : h.Holds o g c) : h.linked g = {o} := by
  by_contra hs
  have hlinked : (h.unlink o).linked g = h.linked g := by
    ext x
    by_cases hx : x = o
    · subst hx
      rw [unlink_of_shared hc ho hs]
      refine ⟨fun _ => mem_linked.mpr ⟨c, ho⟩, fun _ => mem_linked.mpr ⟨c, ?_⟩⟩
      exact (holds_setObj_linked (h := h.setCount c (h.count c - 1)) ho.1).mpr
        (.inr ⟨rfl, rfl, rfl⟩)
    · simp only [mem_linked, holds_unlink_of_ne hx]
  have hself : (h.unlink o).Holds o g c := by
    rw [unlink_of_shared hc ho hs]
    exact (holds_setObj_linked (h := h.setCount c (h.count c - 1)) ho.1).mpr
      (.inr ⟨rfl, rfl, rfl⟩)
  have hcount := hcounts o g c hself
  rw [hlinked, ← hc.counted o g c ho, unlink_of_shared hc ho hs] at hcount
  simp [setObj, setCount] at hcount

/-- Linking anew to no region, or to one that no other handle holds. -/
theorem link_null_spec (hc : h.Counted) (ho : o ∈ h.live) (size : ℕ) :
    (((h.unlink o).setObj o (.unlinked size (some (h.unlink o).next))).newControl 1 true).Counted ∧
      h.Releases
        (((h.unlink o).setObj o (.unlinked size (some (h.unlink o).next))).newControl 1 true) := by
  refine letGo hc ho (fun x g c => ?_) (fun c hcn => ?_) rfl ?_
  · rw [holds_newControl, holds_setObj_unlinked]
    by_cases hx : x = o
    · simp [hx]
    · rw [holds_unlink_of_ne hx]
  · have hne : c ≠ (h.unlink o).next := by
      rw [next_unlink]
      exact hcn.ne
    exact Function.update_of_ne hne _ _
  · show h.next ≤ (h.unlink o).next + 1
    rw [next_unlink]
    exact Nat.le_succ _

theorem holds_link (size : ℕ) (g₁ : R) (ho : o ∈ h.live) (x : ι) (g : R) (c : ℕ) :
    (((h.unlink o).setObj o (.linked g₁ size (h.unlink o).next)).newControl 1 true).Holds x g c ↔
      ((h.unlink o).remove o).Holds x g c ∨
        (x = o ∧ g = g₁ ∧ c = ((h.unlink o).remove o).next) := by
  rw [holds_newControl, holds_setObj_linked (by rwa [mem_live_unlink]), holds_remove]
  rfl

theorem link_spec (hc : h.Counted) (ho : o ∈ h.live) (size : ℕ) {g₁ : R}
    (hfree : ∀ x c, h.Holds x g₁ c → x = o ∧ h.owns c = false) :
    (((h.unlink o).setObj o (.linked g₁ size (h.unlink o).next)).newControl 1 true).Counted ∧
      h.Releases
        (((h.unlink o).setObj o (.linked g₁ size (h.unlink o).next)).newControl 1 true) := by
  set h' := ((h.unlink o).setObj o (.linked g₁ size (h.unlink o).next)).newControl 1 true with hh'
  have hholds := holds_link size g₁ ho
  obtain ⟨hmid, hrel⟩ := destroy_spec hc ho
  have hempty : ((h.unlink o).remove o).linked g₁ = ∅ := by
    by_contra hne
    obtain ⟨x, hx⟩ := Finset.nonempty_iff_ne_empty.mpr hne
    obtain ⟨c, hxc⟩ := mem_linked.mp hx
    obtain ⟨hold, hxo⟩ := holds_remove.mp hxc
    exact hxo (hfree x c ((holds_unlink_of_ne hxo).mp hold)).1
  have hcount : h'.count = Function.update (h.unlink o).count (h.unlink o).next 1 := rfl
  refine ⟨hmid.found hempty hholds ?_ (fun x g c hx => ?_) (Nat.lt_succ_self _), fun g => ?_⟩
  · rw [hcount]
    exact Function.update_self _ _ _
  · rw [hcount]
    exact Function.update_of_ne (hmid.fresh hx).ne _ _
  · by_cases hg : g = g₁
    · subst hg
      have howned : ¬ ∃ x c, h.Holds x g c ∧ h.owns c = true := by
        rintro ⟨x, c, hx, hown⟩
        rw [(hfree x c hx).2] at hown
        exact absurd hown (by decide)
      exact ⟨fun hx => absurd hx.1 howned, fun _ => (hrel g).2 fun hx => howned hx.1⟩
    · have hlinked : h'.linked g = ((h.unlink o).remove o).linked g := by
        ext x
        simp only [mem_linked, hh', hholds, hg, false_and, and_false, or_false]
      rw [hlinked]
      exact hrel g

theorem link_necessary (hc : h.Counted) (ho : o ∈ h.live) {size : ℕ} {g₁ : R}
    (hcounts :
      (((h.unlink o).setObj o (.linked g₁ size (h.unlink o).next)).newControl 1 true).RefCounts)
    (hrel : h.Releases
      (((h.unlink o).setObj o (.linked g₁ size (h.unlink o).next)).newControl 1 true))
    {x : ι} {c : ℕ} (hx : h.Holds x g₁ c) : x = o ∧ h.owns c = false := by
  set h' := ((h.unlink o).setObj o (.linked g₁ size (h.unlink o).next)).newControl 1 true with hh'
  have hholds := holds_link size g₁ ho
  have hself : h'.Holds o g₁ (h.unlink o).next := (hholds _ _ _).mpr (.inr ⟨rfl, rfl, rfl⟩)
  have hsole := hcounts.sole hself (Function.update_self _ _ _)
  have honly : ∀ y c', h.Holds y g₁ c' → y = o := by
    intro y c' hy
    by_contra hyo
    have hmem : y ∈ h'.linked g₁ := by
      refine mem_linked.mpr ⟨c', (hholds _ _ _).mpr (.inl (holds_remove.mpr ⟨?_, hyo⟩))⟩
      exact (holds_unlink_of_ne hyo).mpr hy
    rw [hsole, Finset.mem_singleton] at hmem
    exact hyo hmem
  obtain rfl := honly x c hx
  refine ⟨rfl, ?_⟩
  -- an owned region has been handed back by the `Unlink` inside `Link`, and is linked again
  by_contra hown
  rw [Bool.not_eq_false] at hown
  have hlast : h.linked g₁ = {x} := by
    refine Finset.eq_singleton_iff_unique_mem.mpr ⟨mem_linked.mpr ⟨c, hx⟩, fun y hy => ?_⟩
    obtain ⟨c', hc'⟩ := mem_linked.mp hy
    exact honly y c' hc'
  have hlog : h'.deallocated = h.deallocated ++ [g₁] := by
    show (h.unlink x).deallocated = _
    rw [unlink_of_sole hc hx hlast, hown]
    rfl
  have hsame := (hrel g₁).2 fun hempty => by
    rw [hsole] at hempty
    exact absurd hempty.2 (Finset.singleton_ne_empty _)
  rw [hlog] at hsame
  simp at hsame

theorem swap_of_linked {g : R} {n c : ℕ} (hd : h.obj d = .linked g n c) :
    h.swap o d = (h.setObj o (.linked g n c)).setCount c (h.count c + 1) := by
  simp [swap, hd]

theorem swap_of_unlinked {n : ℕ} {k : Option ℕ} (hd : h.obj d = .unlinked n k) :
    (∀ m j, h.obj o = .unlinked m j → h.swap o d = h) ∧
      (∀ g m c, h.obj o = .linked g m c → h.swap o d = h.unlink o) := by
  constructor
  · intro m j ho
    simp [swap, hd, ho]
  · intro g m c ho
    simp [swap, hd, ho]

theorem copy_spec (hc : h.Counted) (ho : o ∉ h.live) (hd : d ∈ h.live) :
    ((h.create o (.unlinked 0 none)).swap o d).Counted ∧
      h.Releases ((h.create o (.unlinked 0 none)).swap o d) := by
  have hdo : d ≠ o := fun he => ho (he ▸ hd)
  have hcreate : ∀ x g c, (h.create o (.unlinked 0 none)).Holds x g c ↔ h.Holds x g c :=
    fun x g c => holds_create_unlinked ho
  have hobj : (h.create o (.unlinked 0 none)).obj d = h.obj d := Function.update_of_ne hdo _ _
  cases hdobj : h.obj d with
  | unlinked n k =>
    rw [(swap_of_unlinked (hobj.trans hdobj)).1 0 none (Function.update_self _ _ _)]
    refine ⟨hc.congr hcreate (fun _ _ _ _ => rfl) le_rfl, .keep rfl ?_⟩
    rintro g ⟨x, c, hx, -⟩
    exact linked_ne_empty ((hcreate x g c).mpr hx)
  | linked g₁ n c₁ =>
    rw [swap_of_linked (hobj.trans hdobj)]
    set h' := ((h.create o (.unlinked 0 none)).setObj o (.linked g₁ n c₁)).setCount c₁
      ((h.create o (.unlinked 0 none)).count c₁ + 1) with hh'
    have hlive : o ∈ (h.create o (.unlinked 0 none) : Heap ι R).live := Finset.mem_insert_self _ _
    have hholds : ∀ x g c, h'.Holds x g c ↔ h.Holds x g c ∨ (x = o ∧ g = g₁ ∧ c = c₁) := by
      intro x g c
      rw [hh', holds_setCount, holds_setObj_linked hlive, hcreate]
      have hxo : h.Holds x g c → x ≠ o := fun hx he => ho (he ▸ hx.1)
      tauto
    have hcount : h'.count = Function.update h.count c₁ (h.count c₁ + 1) := rfl
    refine ⟨hc.join ⟨hd, n, hdobj⟩ (fun g c hx => ho hx.1) hholds ?_ (fun x g c hx hne => ?_) le_rfl,
      .keep rfl ?_⟩
    · rw [hcount, Function.update_self]
    · rw [hcount, Function.update_of_ne hne]
    · rintro g ⟨x, c, hx, -⟩
      exact linked_ne_empty ((hholds x g c).mpr (.inl hx))

theorem holds_assign {g₁ : R} {n c₁ : ℕ} (ho : o ∈ h.live) (hdobj : h.obj d = .linked g₁ n c₁)
    (x : ι) (g : R) (c : ℕ) :
    (h.swap o d).Holds x g c ↔ (h.Holds x g c ∧ x ≠ o) ∨ (x = o ∧ g = g₁ ∧ c = c₁) := by
  rw [swap_of_linked hdobj, holds_setCount, holds_setObj_linked ho]

theorem count_assign {g₁ : R} {n c₁ : ℕ} (hdobj : h.obj d = .linked g₁ n c₁) :
    (h.swap o d).count = Function.update h.count c₁ (h.count c₁ + 1) := by
  rw [swap_of_linked hdobj]
  rfl

/-- Assigning a handle to one of the same region leaves the region's handles. -/
theorem linked_assign_self {g₁ : R} {n c₁ : ℕ} (ho : o ∈ h.live)
    (hdobj : h.obj d = .linked g₁ n c₁) (hold : o ∈ h.linked g₁) :
    (h.swap o d).linked g₁ = h.linked g₁ := by
  have hholds := holds_assign ho hdobj
  ext x
  simp only [mem_linked]
  constructor
  · rintro ⟨c, hx⟩
    obtain ⟨hx, -⟩ | ⟨rfl, -⟩ := (hholds x g₁ c).mp hx
    · exact ⟨c, hx⟩
    · exact mem_linked.mp hold
  · rintro ⟨c, hx⟩
    by_cases hxo : x = o
    · exact ⟨c₁, (hholds x g₁ c₁).mpr (.inr ⟨hxo, rfl, rfl⟩)⟩
    · exact ⟨c, (hholds x g₁ c).mpr (.inl ⟨hx, hxo⟩)⟩

theorem linked_assign_of_ne {g g₁ : R} {n c₁ : ℕ} (ho : o ∈ h.live)
    (hdobj : h.obj d = .linked g₁ n c₁) (hg : g ≠ g₁) :
    (h.swap o d).linked g = (h.linked g).erase o := by
  have hholds := holds_assign ho hdobj
  ext x
  simp only [mem_linked, Finset.mem_erase]
  constructor
  · rintro ⟨c, hx⟩
    obtain ⟨hx, hxo⟩ | ⟨-, he, -⟩ := (hholds x g c).mp hx
    · exact ⟨hxo, c, hx⟩
    · exact absurd he hg
  · rintro ⟨hxo, c, hx⟩
    exact ⟨c, (hholds x g c).mpr (.inl ⟨hx, hxo⟩)⟩

theorem assign_spec (hc : h.Counted) (ho : o ∈ h.live) (hd : d ∈ h.live)
    (hs : h.Safe (.assign o d)) : (h.swap o d).Counted ∧ h.Releases (h.swap o d) := by
  cases hdobj : h.obj d with
  | unlinked n k =>
    cases hobj : h.obj o with
    | unlinked m j =>
      rw [(swap_of_unlinked hdobj).1 m j hobj]
      exact ⟨hc, .keep rfl fun g ⟨x, c, hx, _⟩ => linked_ne_empty hx⟩
    | linked g m c =>
      rw [(swap_of_unlinked hdobj).2 g m c hobj]
      exact unlink_spec hc ho fun g c hx => (hs g c hx).1
  | linked g₁ n c₁ =>
    have hholds := holds_assign ho hdobj
    have hcount := count_assign (o := o) hdobj
    have hlog : (h.swap o d).deallocated = h.deallocated := by
      rw [swap_of_linked hdobj]
      rfl
    have hnext : (h.swap o d).next = h.next := by
      rw [swap_of_linked hdobj]
      rfl
    cases hobj : h.obj o with
    | unlinked m j =>
      have hnot := not_holds_of_unlinked hobj
      have hholds' : ∀ x g c, (h.swap o d).Holds x g c ↔
          h.Holds x g c ∨ (x = o ∧ g = g₁ ∧ c = c₁) := by
        intro x g c
        rw [hholds]
        have hxo : h.Holds x g c → x ≠ o := fun hx he => hnot g c (he ▸ hx)
        tauto
      refine ⟨hc.join ⟨hd, n, hdobj⟩ hnot hholds' ?_ (fun x g c hx hne => ?_) hnext.ge,
        .keep hlog ?_⟩
      · rw [hcount, Function.update_self]
      · rw [hcount, Function.update_of_ne hne]
      · rintro g ⟨x, c, hx, -⟩
        exact linked_ne_empty ((hholds' x g c).mpr (.inl hx))
    | linked g₀ m c₀ =>
      have hold : h.Holds o g₀ c₀ := ⟨ho, m, hobj⟩
      obtain ⟨hsole, hother⟩ := hs g₀ c₀ hold
      obtain ⟨hg, hown⟩ := hother g₁ c₁ ⟨hd, n, hdobj⟩
      have hc₀ : c₁ ≠ c₀ := fun he => hg ((hc.same hold ⟨hd, n, hdobj⟩).mpr he.symm)
      have hdo : d ≠ o := by
        rintro rfl
        exact hg (hold.unique ⟨hd, n, hdobj⟩).1
      -- the old region is given up first, then the new one joined
      let mid : Heap ι R := (h.setCount c₀ (h.count c₀ - 1)).remove o
      have hmidholds : ∀ x g c, mid.Holds x g c ↔ h.Holds x g c ∧ x ≠ o := fun x g c => by
        rw [holds_remove, holds_setCount]
      have hmid : mid.Counted := hc.drop hold hmidholds (Function.update_self _ _ _)
        (fun c hne => Function.update_of_ne hne _ _) le_rfl
      have hmidcount : ∀ c, c ≠ c₀ → mid.count c = h.count c := fun c hne =>
        Function.update_of_ne hne _ _
      refine ⟨hmid.join ((hmidholds d g₁ c₁).mpr ⟨⟨hd, n, hdobj⟩, hdo⟩) (fun g c hx => ?_)
        (fun x g c => by rw [hholds, hmidholds]) ?_ (fun x g c hx hne => ?_) hnext.ge,
        .keep hlog ?_⟩
      · exact ((hmidholds o g c).mp hx).2 rfl
      · rw [hcount, Function.update_self, hmidcount c₁ hc₀]
      · obtain ⟨hx, hxo⟩ := (hmidholds x g c).mp hx
        have hcc : c ≠ c₀ := by
          intro he
          obtain rfl := (hc.same hx hold).mpr he
          have hmem : x ∈ h.linked g := mem_linked.mpr ⟨c, hx⟩
          rw [hsole, Finset.mem_singleton] at hmem
          exact hxo hmem
        rw [hcount, Function.update_of_ne hne, hmidcount c hcc]
      · rintro g ⟨x, c, hx, hxown⟩
        refine linked_ne_empty ((hholds x g c).mpr (.inl ⟨hx, ?_⟩))
        rintro rfl
        obtain ⟨rfl, rfl⟩ := hx.unique hold
        rw [hown] at hxown
        exact absurd hxown (by decide)

theorem assign_necessary (hc : h.Counted) (ho : o ∈ h.live) (hd : d ∈ h.live)
    (hcounts : (h.swap o d).RefCounts) (hrel : h.Releases (h.swap o d)) :
    h.Safe (.assign o d) := by
  intro g₀ c₀ hold
  obtain ⟨m, hobj⟩ := hold.2
  cases hdobj : h.obj d with
  | unlinked n k =>
    rw [(swap_of_unlinked hdobj).2 g₀ m c₀ hobj] at hcounts
    exact ⟨unlink_necessary hc hcounts hold,
      fun g' c' hx => absurd hx (not_holds_of_unlinked hdobj g' c')⟩
  | linked g₁ n c₁ =>
    have hdh : h.Holds d g₁ c₁ := ⟨hd, n, hdobj⟩
    have hholds := holds_assign ho hdobj
    have hcount := count_assign (o := o) hdobj
    have hnew : (h.swap o d).Holds o g₁ c₁ := (hholds _ _ _).mpr (.inr ⟨rfl, rfl, rfl⟩)
    -- counted once more although the handle was there before
    have hg : g₀ ≠ g₁ := by
      rintro rfl
      obtain rfl := (hc.same hold hdh).mp rfl
      have hsame := linked_assign_self ho hdobj (mem_linked.mpr ⟨c₀, hold⟩)
      have hbad := hcounts o g₀ c₀ hnew
      rw [hsame, ← hc.counted o g₀ c₀ hold, hcount, Function.update_self] at hbad
      omega
    have hcne : c₀ ≠ c₁ := fun he => hg ((hc.same hold hdh).mpr he)
    have herase := linked_assign_of_ne ho hdobj hg
    have hmem : o ∈ h.linked g₀ := mem_linked.mpr ⟨c₀, hold⟩
    have hsole : h.linked g₀ = {o} := by
      by_contra hs
      obtain ⟨y, hy, hyo⟩ := ((Finset.eq_singleton_or_nontrivial hmem).resolve_left hs).exists_ne o
      obtain ⟨c, hyc⟩ := mem_linked.mp hy
      obtain rfl := (hc.same hyc hold).mp rfl
      have hbad := hcounts y g₀ c ((hholds y g₀ c).mpr (.inl ⟨hyc, hyo⟩))
      have hpos := Finset.card_pos.mpr ⟨o, hmem⟩
      rw [herase, Finset.card_erase_of_mem hmem, hcount, Function.update_of_ne hcne,
        hc.counted y g₀ c hyc] at hbad
      omega
    refine ⟨hsole, fun g' c' hx => ?_⟩
    obtain ⟨rfl, rfl⟩ := hx.unique hdh
    refine ⟨hg, ?_⟩
    by_contra hown
    rw [Bool.not_eq_false] at hown
    have hgone : (h.swap o d).linked g₀ = ∅ := by
      rw [herase, hsole, Finset.erase_singleton]
    have hlog := (hrel g₀).1 ⟨⟨o, c₀, hold, hown⟩, hgone⟩
    rw [swap_of_linked hdobj] at hlog
    exact absurd hlog (by simp [setCount, setObj])

theorem setOwns_spec (hc : h.Counted) (c : ℕ) (b : Bool) :
    (h.setOwns c b).Counted ∧ h.Releases (h.setOwns c b) :=
  ⟨hc.congr (fun _ _ _ => Iff.rfl) (fun _ _ _ _ => rfl) le_rfl,
    .keep rfl fun _ ⟨_, _, hx, _⟩ => linked_ne_empty (h := h.setOwns c b) hx⟩

end Operations

/-! ## Whole runs -/

/-- A safe operation is defined, keeps the invariant and releases what it should. -/
theorem apply_spec (hc : h.Counted) {a : Operation ι R} (he : h.Enabled a) (hs : h.Safe a) :
    ∃ h', h.apply a = some h' ∧ h'.Counted ∧ h.Releases h' := by
  have howner : ∀ (o : ι) (b : Bool), (h.obj o).control ≠ none →
      ∃ h', h.setOwnership o b = some h' ∧ h'.Counted ∧ h.Releases h' := by
    intro o b hctl
    obtain ⟨c, hc'⟩ := Option.ne_none_iff_exists'.mp hctl
    exact ⟨h.setOwns c b, by rw [setOwnership, hc']; rfl, setOwns_spec hc c b⟩
  cases a with
  | default o => exact ⟨_, rfl, create_unlinked_spec hc he 0 1 false⟩
  | construct o address size =>
    cases address with
    | none => exact ⟨_, rfl, create_unlinked_spec hc he size _ true⟩
    | some g => exact ⟨_, rfl, construct_spec hc he hs⟩
  | copy o d => exact ⟨_, rfl, copy_spec hc he.1 he.2⟩
  | assign o d => exact ⟨_, rfl, assign_spec hc he.1 he.2 hs⟩
  | link o address size =>
    cases address with
    | none => exact ⟨_, rfl, link_null_spec hc he size⟩
    | some g => exact ⟨_, rfl, link_spec hc he size hs⟩
  | unlink o => exact ⟨_, rfl, unlink_spec hc he hs⟩
  | lose o => exact howner o false hs
  | gain o => exact howner o true hs
  | destroy o => exact ⟨_, rfl, destroy_spec hc he⟩

/-- An operation that is defined and leaves counts and regions right was safe. -/
theorem safe_of_meets (hc : h.Counted) {a : Operation ι R} (he : h.Enabled a)
    (ha : h.apply a = some h') (hcounts : h'.RefCounts) (hrel : h.Releases h') : h.Safe a := by
  have howner : ∀ (o : ι) (b : Bool), h.setOwnership o b = some h' → (h.obj o).control ≠ none := by
    intro o b hb hnone
    rw [setOwnership, hnone] at hb
    exact absurd hb nofun
  cases a with
  | default o => trivial
  | construct o address size =>
    cases address with
    | none => trivial
    | some g =>
      obtain rfl := Option.some.inj ha
      exact construct_necessary he hcounts
  | copy o d => trivial
  | assign o d =>
    obtain rfl := Option.some.inj ha
    exact assign_necessary hc he.1 he.2 hcounts hrel
  | link o address size =>
    cases address with
    | none => trivial
    | some g =>
      obtain rfl := Option.some.inj ha
      exact fun x c hx => link_necessary hc he hcounts hrel hx
  | unlink o =>
    obtain rfl := Option.some.inj ha
    exact fun g c ho => unlink_necessary hc hcounts ho
  | lose o => exact howner o false ha
  | gain o => exact howner o true ha
  | destroy o => trivial

/-- The operation is safe, if it can be taken at all. -/
def SafeStep (h : Heap ι R) (a : Operation ι R) : Prop := h.Enabled a → h.Safe a

theorem meets_iff (hc : h.Counted) (a : Operation ι R) : h.Meets a ↔ h.SafeStep a := by
  constructor
  · intro hm he
    obtain ⟨h', ha, hcounts, hrel⟩ := hm he
    exact safe_of_meets hc he ha hcounts hrel
  · intro hs he
    obtain ⟨h', ha, hc', hrel⟩ := apply_spec hc he (hs he)
    exact ⟨h', ha, hc'.counted, hrel⟩

theorem step_counted (hc : h.Counted) {a : Operation ι R} (hs : h.SafeStep a)
    (ha : h.step a = some h') : h'.Counted ∧ h.Releases h' := by
  unfold step at ha
  split_ifs at ha with he
  obtain ⟨h'', ha', hc', hrel⟩ := apply_spec hc he (hs he)
  obtain rfl : h'' = h' := Option.some.inj (ha'.symm.trans ha)
  exact ⟨hc', hrel⟩

/-- Over any sequence of operations, every step leaves the counts right and hands
back exactly the regions it should if and only if every step is safe. -/
theorem refCount_iff (as : List (Operation ι R)) :
    StepSystem.Guarded step Meets (initial : Heap ι R) as ↔
      StepSystem.Guarded step SafeStep (initial : Heap ι R) as :=
  StepSystem.guarded_iff (fun _ _ _ hc hs ha => (step_counted hc hs ha).1)
    (fun _ a hc => meets_iff hc a) counted_initial

/-- Two regions with one handle each; the first handle is assigned the second.
The first region has no handle left and is not handed back. -/
theorem assign_leaks :
    ¬ ∀ as : List (Operation ℕ ℕ), StepSystem.Guarded step Meets (initial : Heap ℕ ℕ) as := by
  intro hall
  have hmeets := (((hall [.construct 0 (some 0) 8, .construct 1 (some 1) 8, .assign 0 1]).2
    _ rfl).2 _ rfl).1
  obtain ⟨h', ha, -, hrel⟩ := hmeets (by decide)
  obtain rfl := Option.some.inj ha
  have howned := (hrel 0).1 ⟨⟨0, 0, ⟨by decide, 8, rfl⟩, rfl⟩, by decide⟩
  exact absurd howned (by decide)

end Heap
end Damaris.Buffer
