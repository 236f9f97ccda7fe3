import Mathlib.Order.Bounds.Basic
import Damaris.Data.BlockIndex

/-!
# The ranges of a variable's blocks

Each range is read off the ends of an index: the one by iteration, by source or by domain id. The
range of ids is read off the right index, but what is read of its blocks is their source.
-/
namespace Damaris.Data.Variable

variable {D : Type*}

/-- What the blocks at the ends of the index by `f` answer: `none` where `false` is returned. -/
def endsOf (v : Variable D) (f answer : Block D → ℤ) : Option (ℤ × ℤ) :=
  if v.blocks.elems.length = 0 then none
  else
    match (v.blocks.index f).head?, (v.blocks.index f).getLast? with
    | some first, some last => some (answer first, answer last)
    | _, _ => none

/-- `GetIterationRange`. -/
def getIterationRange (v : Variable D) : Option (ℤ × ℤ) := v.endsOf Block.iteration Block.iteration

/-- `GetSourceRange`. -/
def getSourceRange (v : Variable D) : Option (ℤ × ℤ) := v.endsOf Block.source Block.source

/-- `GetIDRange`. -/
def getIDRange (v : Variable D) : Option (ℤ × ℤ) := v.endsOf Block.id Block.source

/-- What the stored blocks have for `f`. -/
def values (v : Variable D) (f : Block D → ℤ) : Set ℤ := {x | ∃ b ∈ v.blocks, f b = x}

/-- There is an answer exactly when there is a block, and it is the least and the greatest value. -/
structure Extremal (v : Variable D) (f : Block D → ℤ) (r : Option (ℤ × ℤ)) : Prop where
  stored : r.isSome = true ↔ ∃ b, b ∈ v.blocks
  lowest : ∀ lo hi, r = some (lo, hi) → IsLeast (v.values f) lo
  biggest : ∀ lo hi, r = some (lo, hi) → IsGreatest (v.values f) hi

/-- All three ranges are right. -/
structure RangesExtremal (v : Variable D) : Prop where
  iteration : v.Extremal Block.iteration v.getIterationRange
  source : v.Extremal Block.source v.getSourceRange
  id : v.Extremal Block.id v.getIDRange

/-- Of the blocks with the least id the one that came first, and of those with the greatest the one
that came last, come from the source with the number of the id. -/
structure EndsFromSource (v : Variable D) : Prop where
  first : ∀ m, IsLeast (v.values Block.id) m →
    ∀ b, v.blocks.elems.find? (fun c => decide (c.id = m)) = some b → b.source = m
  last : ∀ m, IsGreatest (v.values Block.id) m →
    ∀ b, v.blocks.elems.reverse.find? (fun c => decide (c.id = m)) = some b → b.source = m

/-- The ends of an index: no block, or the first of the least and the last of the greatest. -/
theorem endsOf_cases (v : Variable D) (f answer : Block D → ℤ) :
    (v.endsOf f answer = none ∧ ∀ b, b ∉ v.blocks) ∨
      ∃ b c, v.endsOf f answer = some (answer b, answer c) ∧ b ∈ v.blocks ∧ c ∈ v.blocks ∧
        IsLeast (v.values f) (f b) ∧ IsGreatest (v.values f) (f c) ∧
        v.blocks.elems.find? (fun x => decide (f x = f b)) = some b ∧
        v.blocks.elems.reverse.find? (fun x => decide (f x = f c)) = some c := by
  by_cases hempty : v.blocks.elems.length = 0
  · refine .inl ⟨by rw [endsOf, if_pos hempty], fun b hb => ?_⟩
    rw [KeyedStore.mem_def, List.eq_nil_of_length_eq_zero hempty] at hb
    cases hb
  · have hne : v.blocks.index f ≠ [] := by
      intro hnil
      have hlen := (v.blocks.index_perm f).length_eq
      rw [hnil] at hlen
      exact hempty hlen.symm
    have hfirst := List.head?_eq_some_head hne
    have hlast := List.getLast?_eq_some_getLast hne
    obtain ⟨hle, hfind⟩ := KeyedStore.head?_index hfirst
    obtain ⟨hge, hfind'⟩ := KeyedStore.getLast?_index hlast
    have hb : (v.blocks.index f).head hne ∈ v.blocks := KeyedStore.mem_index.mp (List.head_mem hne)
    have hc : (v.blocks.index f).getLast hne ∈ v.blocks :=
      KeyedStore.mem_index.mp (List.getLast_mem hne)
    refine .inr ⟨_, _, ?_, hb, hc, ⟨⟨_, hb, rfl⟩, ?_⟩, ⟨⟨_, hc, rfl⟩, ?_⟩, hfind, hfind'⟩
    · rw [endsOf, if_neg hempty, hfirst, hlast]
    · rintro x ⟨d, hd, rfl⟩
      exact hle d hd
    · rintro x ⟨d, hd, rfl⟩
      exact hge d hd

theorem extremal_none {v : Variable D} {f : Block D → ℤ} (hempty : ∀ b, b ∉ v.blocks) :
    v.Extremal f none := by
  refine ⟨iff_of_false (by decide) fun ⟨b, hb⟩ => hempty b hb, ?_, ?_⟩
  · intro lo hi h
    cases h
  · intro lo hi h
    cases h

theorem Extremal.exists_eq_some {v : Variable D} {f : Block D → ℤ} {r : Option (ℤ × ℤ)}
    (h : v.Extremal f r) {x : ℤ} (hx : x ∈ v.values f) : ∃ lo hi, r = some (lo, hi) := by
  obtain ⟨b, hb, -⟩ := hx
  obtain ⟨⟨lo, hi⟩, heq⟩ := Option.isSome_iff_exists.mp (h.stored.mpr ⟨b, hb⟩)
  exact ⟨lo, hi, heq⟩

theorem Extremal.eq_some {v : Variable D} {f : Block D → ℤ} {r : Option (ℤ × ℤ)}
    (h : v.Extremal f r) {lo hi : ℤ} (hlo : IsLeast (v.values f) lo)
    (hhi : IsGreatest (v.values f) hi) : r = some (lo, hi) := by
  obtain ⟨lo', hi', heq⟩ := h.exists_eq_some hlo.1
  rw [heq, (h.lowest _ _ heq).unique hlo, (h.biggest _ _ heq).unique hhi]

/-- A range that reads what its index is ordered by. -/
theorem endsOf_extremal (v : Variable D) (f : Block D → ℤ) : v.Extremal f (v.endsOf f f) := by
  rcases v.endsOf_cases f f with ⟨hnone, hempty⟩ | ⟨b, c, hsome, hb, -, hleast, hgreatest, -, -⟩
  · rw [hnone]
    exact extremal_none hempty
  · rw [hsome]
    refine ⟨iff_of_true rfl ⟨b, hb⟩, fun lo hi h => ?_, fun lo hi h => ?_⟩
    · cases h
      exact hleast
    · cases h
      exact hgreatest

theorem getIDRange_extremal_iff (v : Variable D) :
    v.Extremal Block.id v.getIDRange ↔ v.EndsFromSource := by
  rcases v.endsOf_cases Block.id Block.source with
    ⟨hnone, hempty⟩ | ⟨b, c, hsome, hb, hc, hleast, hgreatest, hfind, hfind'⟩
  · have hvalues : ∀ x, x ∉ v.values Block.id := fun x ⟨d, hd, _⟩ => hempty d hd
    rw [getIDRange, hnone]
    exact iff_of_true (extremal_none hempty)
      ⟨fun m hm => absurd hm.1 (hvalues m), fun m hm => absurd hm.1 (hvalues m)⟩
  · rw [getIDRange, hsome]
    constructor
    · intro h
      have hlowest : b.source = b.id := (h.lowest _ _ rfl).unique hleast
      have hbiggest : c.source = c.id := (h.biggest _ _ rfl).unique hgreatest
      refine ⟨fun m hm d hd => ?_, fun m hm d hd => ?_⟩
      · obtain rfl := hm.unique hleast
        obtain rfl := Option.some.inj (hfind.symm.trans hd)
        exact hlowest
      · obtain rfl := hm.unique hgreatest
        obtain rfl := Option.some.inj (hfind'.symm.trans hd)
        exact hbiggest
    · intro h
      refine ⟨iff_of_true rfl ⟨b, hb⟩, fun lo hi heq => ?_, fun lo hi heq => ?_⟩
      · cases heq
        rw [h.first _ hleast b hfind]
        exact hleast
      · cases heq
        rw [h.last _ hgreatest c hfind']
        exact hgreatest

/-- The ranges of iterations and of sources are always right. -/
theorem rangesExtremal_iff (v : Variable D) : v.RangesExtremal ↔ v.EndsFromSource := by
  rw [← getIDRange_extremal_iff]
  constructor
  · exact RangesExtremal.id
  · exact fun h => ⟨v.endsOf_extremal Block.iteration, v.endsOf_extremal Block.source, h⟩

/-- The block of domain 0 that client 3 wrote: its range of ids is said to be 3 to 3. -/
theorem idRange_of_source_three : ¬ ∀ (timeVarying : Bool) (layout : Layout)
    (cs : List (Call Unit Unit)) (v : Variable Unit),
    StepSystem.run step (new timeVarying layout) cs = some v → v.RangesExtremal := by
  intro hall
  let b : Block Unit := Block.new 3 0 0 ⟨4, []⟩
  have hranges := hall true ⟨4, []⟩ [.attachBlock (some b)] _ rfl
  have hleast := hranges.id.lowest 3 3 (by decide +kernel)
  obtain ⟨c, hc, hid⟩ := hleast.1
  rw [List.mem_singleton.mp hc] at hid
  cases hid

end Damaris.Data.Variable
