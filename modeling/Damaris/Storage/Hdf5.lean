import Mathlib.Tactic
import Damaris.Lib.RowMajor

/-!
# The calls of HDF5 that a store makes

HDF5 is not part of the repository. A dataspace has extents and a selection in an order, and a
transfer takes the selected items of the memory to the selected items of the file, one by one.
`Documented` is what the store relies on. `Hdf5.reference` is one such library.
-/
namespace Damaris

/-- Dataspaces `S`, and items `V`. A call that fails answers `none`. -/
structure Hdf5 (S V : Type) where
  createSimple : List ℕ → Option S
  extents : S → List ℕ
  selected : S → List (List ℕ)
  selectAll : S → S
  /-- `H5Sselect_hyperslab` with an offset and a count, stride and block being one. -/
  selectHyperslab : S → List ℕ → List ℕ → Option S
  /-- `H5Sselect_elements` with a number of elements and their coordinates one after the other. -/
  selectElements : S → ℕ → List ℕ → Option S
  /-- What a dataset holds after `H5Dcreate`. -/
  created : S → List V
  /-- `H5Dwrite` from a memory space to a file space, of a buffer into a dataset. -/
  write : S → S → List V → List V → Option (List V)

namespace Hdf5

open RowMajor

variable {S V : Type}

/-- `H5S_MAX_RANK`. -/
def maxRank : ℕ := 32

/-- `H5S_UNLIMITED`, which is no size. -/
def unlimited : ℕ := 2 ^ 64 - 1

/-- Coordinates of elements, `rank` of them for each. -/
def elements (rank num : ℕ) (coord : List ℕ) : List (List ℕ) :=
  (List.range num).map fun k => (coord.drop (k * rank)).take rank

@[simp] theorem length_elements (rank num : ℕ) (coord : List ℕ) :
    (elements rank num coord).length = num := by
  rw [elements, List.length_map, List.length_range]

theorem elements_one {num k : ℕ} {coord : List ℕ} (hk : k < num) (hlen : num = coord.length) :
    (elements 1 num coord)[k]? = (coord[k]?).map fun x => [x] := by
  subst hlen
  rw [elements, List.getElem?_map, List.getElem?_range hk, Option.map_some, Nat.mul_one,
    List.getElem?_eq_getElem hk, List.drop_eq_getElem_cons hk]
  rfl

theorem unlimited_notMem {es : List ℤ} (h : ∀ e ∈ es, e < 2 ^ 63) :
    unlimited ∉ es.map Int.toNat := by
  intro hmem
  obtain ⟨e, he, heq⟩ := List.mem_map.mp hmem
  have hlt := h e he
  unfold unlimited at heq
  omega

/-- A selection stays inside its dataspace. -/
def Valid (h : Hdf5 S V) (s : S) : Prop := ∀ p ∈ h.selected s, p ∈ points (h.extents s)

structure Documented (h : Hdf5 S V) : Prop where
  createSimple_le : ∀ dims, dims.length ≤ maxRank → unlimited ∉ dims →
    ∃ s, h.createSimple dims = some s ∧ h.extents s = dims ∧ h.selected s = points dims
  createSimple_gt : ∀ dims, maxRank < dims.length ∨ unlimited ∈ dims → h.createSimple dims = none
  selectAll : ∀ s, h.extents (h.selectAll s) = h.extents s ∧
    h.selected (h.selectAll s) = points (h.extents s)
  selectHyperslab : ∀ s s' offset count, h.selectHyperslab s offset count = some s' →
    h.extents s' = h.extents s ∧ h.selected s' = slab offset count
  selectElements_extents : ∀ s s' num coord, h.selectElements s num coord = some s' →
    h.extents s' = h.extents s
  selectElements_zero : ∀ s coord, h.selectElements s 0 coord = none
  selectElements : ∀ s num coord, 0 < num → h.extents s ≠ [] →
    coord.length = num * (h.extents s).length →
    ∃ s', h.selectElements s num coord = some s' ∧
      h.selected s' = elements (h.extents s).length num coord
  created : ∀ s, (h.created s).length = (h.extents s).prod
  write_length : ∀ mem file data d d', h.write mem file data d = some d' → d'.length = d.length
  write_ne : ∀ mem file data d, (h.selected mem).length ≠ (h.selected file).length →
    h.write mem file data d = none
  write_eq : ∀ mem file data d, (h.selected mem).length = (h.selected file).length →
    h.Valid mem → h.Valid file → (h.selected file).Nodup →
    data.length = (h.extents mem).prod → d.length = (h.extents file).prod →
    ∃ d', h.write mem file data d = some d' ∧
      ∀ (k : ℕ) p q, (h.selected mem)[k]? = some p → (h.selected file)[k]? = some q →
        d'[index (h.extents file) q]? = data[index (h.extents mem) p]?

/-- A dataspace that could be created has the extents asked for, all of them selected. -/
theorem Documented.of_createSimple {h : Hdf5 S V} (hdoc : h.Documented) {dims : List ℕ} {s : S}
    (hs : h.createSimple dims = some s) : dims.length ≤ maxRank ∧ unlimited ∉ dims ∧
      h.extents s = dims ∧ h.selected s = points dims := by
  have hfits : dims.length ≤ maxRank ∧ unlimited ∉ dims := by
    by_contra hnot
    rw [not_and_or, not_le, not_not] at hnot
    rw [hdoc.createSimple_gt dims hnot] at hs
    cases hs
  obtain ⟨s', hs', hextents, hselected⟩ := hdoc.createSimple_le dims hfits.1 hfits.2
  rw [hs, Option.some.injEq] at hs'
  subst hs'
  exact ⟨hfits.1, hfits.2, hextents, hselected⟩

/-- Elements whose coordinates are all there can be selected. -/
theorem Documented.read {h : Hdf5 S V} (hdoc : h.Documented) (s : S) (m : List ℕ) {num pos : ℕ}
    (hnum : 0 < num) (hne : h.extents s ≠ []) (hread : pos + num * (h.extents s).length ≤ m.length) :
    ∃ s', h.selectElements s num ((m.drop pos).take (num * (h.extents s).length)) = some s' ∧
      h.extents s' = h.extents s ∧ h.selected s' = elements (h.extents s).length num
        ((m.drop pos).take (num * (h.extents s).length)) := by
  have hlen : ((m.drop pos).take (num * (h.extents s).length)).length =
      num * (h.extents s).length := by
    rw [List.length_take, List.length_drop]
    omega
  obtain ⟨s', hs', hselected⟩ := hdoc.selectElements s num _ hnum hne hlen
  exact ⟨s', hs', hdoc.selectElements_extents _ _ _ _ hs', hselected⟩

/-- A library with dataspaces that are their extents and their selection. -/
def reference (V : Type) [Inhabited V] : Hdf5 (List ℕ × List (List ℕ)) V where
  createSimple dims :=
    if dims.length ≤ maxRank ∧ unlimited ∉ dims then some (dims, points dims) else none
  extents := Prod.fst
  selected := Prod.snd
  selectAll s := (s.1, points s.1)
  selectHyperslab s offset count :=
    if ∀ p ∈ slab offset count, p ∈ points s.1 then some (s.1, slab offset count) else none
  selectElements s num coord :=
    if 0 < num then some (s.1, elements s.1.length num coord) else none
  created s := List.replicate s.1.prod default
  write mem file data d :=
    if mem.2.length = file.2.length then
      some (transfer (mem.2.map (index mem.1)) (file.2.map (index file.1)) data d)
    else none

theorem reference_documented (V : Type) [Inhabited V] : (reference V).Documented where
  createSimple_le dims hrank hlimited := ⟨(dims, points dims), if_pos ⟨hrank, hlimited⟩, rfl, rfl⟩
  createSimple_gt dims h := by
    refine if_neg ?_
    rintro ⟨hrank, hlimited⟩
    exact h.elim (by omega) hlimited
  selectAll s := ⟨rfl, rfl⟩
  selectHyperslab s s' offset count hs := by
    dsimp only [reference] at hs
    split at hs
    · cases hs
      exact ⟨rfl, rfl⟩
    · cases hs
  selectElements_extents s s' num coord hs := by
    dsimp only [reference] at hs
    split at hs
    · cases hs
      rfl
    · cases hs
  selectElements_zero s coord := rfl
  selectElements s num coord hnum _ _ :=
    ⟨(s.1, elements s.1.length num coord), if_pos hnum, rfl⟩
  created s := List.length_replicate
  write_length mem file data d d' hwrite := by
    dsimp only [reference] at hwrite
    split at hwrite
    · cases hwrite
      exact length_transfer _ _ _ _
    · cases hwrite
  write_ne mem file data d hne := if_neg hne
  write_eq mem file data d heq hmem hfile hnodup hdata hd := by
    refine ⟨_, if_pos heq, ?_⟩
    intro k p q hp hq
    have hsrc : (mem.2.map (index mem.1))[k]? = some (index mem.1 p) := by
      rw [List.getElem?_map]
      exact congrArg _ hp
    have hdst : (file.2.map (index file.1))[k]? = some (index file.1 q) := by
      rw [List.getElem?_map]
      exact congrArg _ hq
    refine getElem?_transfer (nodup_map_index hnodup hfile) hsrc hdst ?_ ?_
    · rw [hdata]
      exact index_lt (hmem p (List.mem_of_getElem? hp))
    · rw [hd]
      exact index_lt (hfile q (List.mem_of_getElem? hq))

end Hdf5
end Damaris
