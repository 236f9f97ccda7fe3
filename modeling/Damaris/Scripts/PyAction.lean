import Damaris.Lib.RowMajor
import Damaris.Storage.PerCore

/-!
# Blocks as NumPy arrays

`PassDataToPython` describes a block to NumPy by its extents, and `ReturnNpNdarrayTyped` adds the
strides, written out for each number of dimensions. What NumPy makes of the memory is not part of the
model.
-/
namespace Damaris

open Data RowMajor

namespace PyAction

variable {D : Type*}

/-- An entry of the array `localDims`, which has no more than its length. -/
def entry (localDims : List Int32) (i : ℕ) : Option ℤ := localDims[i]?.map Int32.toInt

/-- `ReturnNpNdarrayTyped`: the shape and the strides. `none` where `localDims` is read past its end,
and for more than five dimensions, where the function prints an error and ends without a value. -/
def returnNpNdarrayTyped (sizeofT : ℕ) (blockDimension : ℕ) (localDims : List Int32) :
    Option (List ℤ × List ℕ) :=
  let d := entry localDims
  match blockDimension with
  | 1 => do
    let d0 ← d 0
    some ([d0], [sizeofT])
  | 2 => do
    let d0 ← d 0
    let d1 ← d 1
    let d2 ← d 2
    some ([d0, d1], [toSize (sizeofT * d2), sizeofT])
  | 3 => do
    let d0 ← d 0
    let d1 ← d 1
    let d2 ← d 2
    some ([d0, d1, d2], [toSize (sizeofT * d2 * d1), toSize (sizeofT * d2), sizeofT])
  | 4 => do
    let d0 ← d 0
    let d1 ← d 1
    let d2 ← d 2
    let d3 ← d 3
    some ([d0, d1, d2, d3],
      [toSize (sizeofT * d3 * d2 * d1), toSize (sizeofT * d2 * d1), toSize (sizeofT * d2), sizeofT])
  | 5 => do
    let d0 ← d 0
    let d1 ← d 1
    let d2 ← d 2
    let d3 ← d 3
    let d4 ← d 4
    some ([d0, d1, d2, d3, d4],
      [toSize (sizeofT * d4 * d3 * d2 * d1), toSize (sizeofT * d3 * d2 * d1),
        toSize (sizeofT * d2 * d1), toSize (sizeofT * d2), sizeofT])
  | _ => none

/-- The extents that `PassDataToPython` writes to `localDims`. -/
def localDims (b : Block D) (blockDimension : ℕ) : List Int32 :=
  (List.range blockDimension).map fun i => Int32.ofInt (b.endIndex i - b.startIndex i + 1)

/-- The extents that `localDims` says. -/
def extents (localDims : List Int32) : List ℕ := localDims.map fun d => d.toInt.toNat

/-- There is a view of as many dimensions, and each valid index leads to the bytes of the item that
has it in row-major order. -/
def ViewsRowMajor (sizeofT : ℕ) (localDims : List Int32) : Prop :=
  ∃ shape strides, returnNpNdarrayTyped sizeofT localDims.length localDims = some (shape, strides) ∧
    ∀ p ∈ points (extents localDims), offset strides p = sizeofT * index (extents localDims) p

/-- When the strides are as good as those of row-major order. -/
def StridesAgree : List ℕ → Prop
  | [_] => True
  | [_, _, _] => True
  | [_, d1, d2, d3] => (d1 = 1 ∨ d1 = d3) ∧ (d2 = 1 ∨ d2 = d3)
  | [_, d1, d2, d3, d4] => (d1 = 1 ∨ d1 = d4) ∧ (d2 = 1 ∨ d1 * d2 = d3 * d4) ∧ (d3 = 1 ∨ d2 = d4)
  | _ => False

/-! ## The caller's extents -/

/-- The array holds the extents of the block where these are in the range of an `int`. -/
theorem extents_localDims {b : Block D} {rank : ℕ} (hl : b.lowerBounds.length = rank)
    (hu : b.upperBounds.length = rank) (hrange : ∀ e ∈ b.extents, 0 ≤ e ∧ e < 2 ^ 31) :
    extents (localDims b rank) = b.extents.map Int.toNat := by
  have hlen := Block.length_extents hl hu
  refine List.ext_getElem (by simp [extents, localDims, hlen]) ?_
  intro i hi hi'
  have hlt : i < b.extents.length := by simpa using hi'
  have hextent := b.getElem_extents hlt
  have he := hrange _ (List.getElem_mem hlt)
  simp only [extents, localDims, List.getElem_map, List.getElem_range, ← hextent]
  rw [Int32.toInt_ofInt_of_le (by omega) (by omega)]

/-! ## The strides, one number of dimensions after the other -/

section

variable {sizeofT : ℕ} {dims : List Int32}

theorem extents_pos (hpos : ∀ d ∈ dims, 1 ≤ d.toInt) : ∀ n ∈ extents dims, 0 < n := by
  intro n hn
  obtain ⟨d, hd, rfl⟩ := List.mem_map.mp hn
  have hd1 := hpos d hd
  omega

/-- Views are compared stride by stride. -/
theorem viewsRowMajor_iff {shape : List ℤ} {ws : List ℕ} (hpos : ∀ d ∈ dims, 1 ≤ d.toInt)
    (hret : returnNpNdarrayTyped sizeofT dims.length dims = some (shape, ws))
    (hlen : ws.length = dims.length) :
    ViewsRowMajor sizeofT dims ↔ Agree (extents dims) ws (strides sizeofT (extents dims)) := by
  have hextents : (extents dims).length = dims.length := List.length_map _
  rw [← offset_eq_iff (extents_pos hpos) (hlen.trans hextents.symm) (length_strides _ _)]
  constructor
  · rintro ⟨shape', ws', hret', hws⟩ p hp
    rw [hret] at hret'
    cases hret'
    rw [hws p hp, offset_strides _ hp]
  · intro h
    refine ⟨shape, ws, hret, fun p hp => ?_⟩
    rw [h p hp, offset_strides _ hp]

theorem one_lt_imp {n : ℕ} (h : 0 < n) (p : Prop) : (1 < n → p) ↔ n = 1 ∨ p := by
  constructor
  · intro hp
    by_cases hn : n = 1
    · exact .inl hn
    · exact .inr (hp (by omega))
  · rintro (rfl | hp) hlt
    · exact absurd hlt (by decide)
    · exact hp

theorem foldl_toInt {ds : List Int32} (hpos : ∀ d ∈ ds, 1 ≤ d.toInt) (n : ℕ) :
    ds.foldl (fun x d => x * d.toInt) (n : ℤ) = ((extents ds).foldl (· * ·) n : ℕ) := by
  induction ds generalizing n with
  | nil => rfl
  | cons d ds ih =>
    obtain ⟨hd, hpos⟩ := List.forall_mem_cons.mp hpos
    have hcast : (n : ℤ) * d.toInt = ((n * d.toInt.toNat : ℕ) : ℤ) := by
      rw [Nat.cast_mul, Int.toNat_of_nonneg (by omega)]
    rw [List.foldl_cons, hcast, ih hpos]
    rfl

theorem foldl_mul (n : ℕ) (ns : List ℕ) : ns.foldl (· * ·) n = n * ns.prod := by
  induction ns generalizing n with
  | nil => rw [List.foldl_nil, List.prod_nil, mul_one]
  | cons m ns ih => rw [List.foldl_cons, ih, List.prod_cons, mul_assoc]

/-- A product of the size and some extents is what it says when that of all of them fits. -/
theorem toSize_foldl (hpos : ∀ d ∈ dims, 1 ≤ d.toInt)
    (hfits : sizeofT * (extents dims).prod < 2 ^ 63) (ds : List Int32)
    (hsub : ds.Sublist dims.reverse) :
    toSize (ds.foldl (fun x d => x * d.toInt) (sizeofT : ℤ)) =
      (extents ds).foldl (· * ·) sizeofT := by
  rw [foldl_toInt fun d hd => hpos d (List.mem_reverse.mp (hsub.subset hd))]
  refine toSize_of_lt ?_
  have hdvd : (extents ds).prod ∣ (extents dims).prod := by
    have hprod := (hsub.map fun d => d.toInt.toNat).prod_dvd_prod
    rwa [List.map_reverse, List.prod_reverse] at hprod
  have htotal : 0 < (extents dims).prod := List.prod_pos (extents_pos hpos)
  have hle := Nat.mul_le_mul_left sizeofT (Nat.le_of_dvd htotal hdvd)
  rw [foldl_mul]
  omega

/-- The strides of the source, in numbers that do not wrap around. -/
def widths (sizeofT : ℕ) : List ℕ → List ℕ
  | [_] => [sizeofT]
  | [_, d1, d2] => [sizeofT * d2 * d1, sizeofT * d2, sizeofT]
  | [_, d1, d2, d3] => [sizeofT * d3 * d2 * d1, sizeofT * d2 * d1, sizeofT * d2, sizeofT]
  | [_, d1, d2, d3, d4] =>
    [sizeofT * d4 * d3 * d2 * d1, sizeofT * d3 * d2 * d1, sizeofT * d2 * d1, sizeofT * d2, sizeofT]
  | _ => []

theorem length_widths (s : ℕ) {ns : List ℕ} (hlo : 1 ≤ ns.length) (hhi : ns.length ≤ 5)
    (htwo : ns.length ≠ 2) : (widths s ns).length = ns.length := by
  match ns, hlo, hhi, htwo with
  | [_], _, _, _ => rfl
  | [_, _, _], _, _, _ => rfl
  | [_, _, _, _], _, _, _ => rfl
  | [_, _, _, _, _], _, _, _ => rfl

theorem returnNpNdarrayTyped_eq (hpos : ∀ d ∈ dims, 1 ≤ d.toInt)
    (hfits : sizeofT * (extents dims).prod < 2 ^ 63) (hlo : 1 ≤ dims.length) (hhi : dims.length ≤ 5)
    (htwo : dims.length ≠ 2) :
    ∃ shape, returnNpNdarrayTyped sizeofT dims.length dims =
      some (shape, widths sizeofT (extents dims)) := by
  match dims, hlo, hhi, htwo with
  | [_], _, _, _ => exact ⟨_, rfl⟩
  | [a0, a1, a2], _, _, _ =>
    have hs0 := toSize_foldl hpos hfits [a2, a1] (by simp)
    have hs1 := toSize_foldl hpos hfits [a2] (by simp)
    exact ⟨_, congrArg some (Prod.ext rfl (congrArg₂ _ hs0 (congrArg₂ _ hs1 rfl)))⟩
  | [a0, a1, a2, a3], _, _, _ =>
    have hs0 := toSize_foldl hpos hfits [a3, a2, a1] (by simp)
    have hs1 := toSize_foldl hpos hfits [a2, a1] (by simp)
    have hs2 := toSize_foldl hpos hfits [a2] (by simp)
    exact ⟨_, congrArg some (Prod.ext rfl
      (congrArg₂ _ hs0 (congrArg₂ _ hs1 (congrArg₂ _ hs2 rfl))))⟩
  | [a0, a1, a2, a3, a4], _, _, _ =>
    have hs0 := toSize_foldl hpos hfits [a4, a3, a2, a1] (by simp)
    have hs1 := toSize_foldl hpos hfits [a3, a2, a1] (by simp)
    have hs2 := toSize_foldl hpos hfits [a2, a1] (by simp)
    have hs3 := toSize_foldl hpos hfits [a2] (by simp)
    exact ⟨_, congrArg some (Prod.ext rfl
      (congrArg₂ _ hs0 (congrArg₂ _ hs1 (congrArg₂ _ hs2 (congrArg₂ _ hs3 rfl)))))⟩

/-- Stride by stride, what is left when the common factors are gone. -/
theorem agree_widths_iff {s : ℕ} (hs : 0 < s) {ns : List ℕ} (hpos : ∀ n ∈ ns, 0 < n)
    (hlo : 1 ≤ ns.length) (hhi : ns.length ≤ 5) (htwo : ns.length ≠ 2) :
    Agree ns (widths s ns) (strides s ns) ↔ StridesAgree ns := by
  match ns, hlo, hhi, htwo with
  | [_], _, _, _ => simp [Agree, widths, strides, StridesAgree]
  | [_, n1, n2], _, _, _ =>
    have hw0 : s * n2 * n1 = s * (n1 * n2) := by ring
    simp [Agree, widths, strides, StridesAgree, hw0]
  | [_, n1, n2, n3], _, _, _ =>
    simp only [List.forall_mem_cons, List.not_mem_nil, false_implies, implies_true, and_true] at hpos
    obtain ⟨-, p1, p2, p3⟩ := hpos
    have hw0 : s * n3 * n2 * n1 = s * (n1 * (n2 * n3)) := by ring
    have hw1 : s * n2 * n1 = s * (n2 * n3) ↔ n1 = n3 := by
      rw [mul_assoc, Nat.mul_left_cancel_iff hs, Nat.mul_left_cancel_iff p2]
    have hw2 : s * n2 = s * n3 ↔ n2 = n3 := Nat.mul_left_cancel_iff hs
    simp only [Agree, widths, strides, StridesAgree, List.prod_cons, List.prod_nil, mul_one, hw0, hw1,
      hw2, implies_true, and_true, true_and, one_lt_imp p1, one_lt_imp p2]
  | [_, n1, n2, n3, n4], _, _, _ =>
    simp only [List.forall_mem_cons, List.not_mem_nil, false_implies, implies_true, and_true] at hpos
    obtain ⟨-, p1, p2, p3, p4⟩ := hpos
    have hw0 : s * n4 * n3 * n2 * n1 = s * (n1 * (n2 * (n3 * n4))) := by ring
    have hw1 : s * n3 * n2 * n1 = s * (n2 * (n3 * n4)) ↔ n1 = n4 := by
      have hleft : s * n3 * n2 * n1 = s * (n3 * n2) * n1 := by ring
      have hright : s * (n2 * (n3 * n4)) = s * (n3 * n2) * n4 := by ring
      rw [hleft, hright, Nat.mul_left_cancel_iff (Nat.mul_pos hs (Nat.mul_pos p3 p2))]
    have hw2 : s * n2 * n1 = s * (n3 * n4) ↔ n1 * n2 = n3 * n4 := by
      rw [mul_assoc, Nat.mul_left_cancel_iff hs, Nat.mul_comm n2]
    have hw3 : s * n2 = s * n4 ↔ n2 = n4 := Nat.mul_left_cancel_iff hs
    simp only [Agree, widths, strides, StridesAgree, List.prod_cons, List.prod_nil, mul_one, hw0, hw1,
      hw2, hw3, implies_true, and_true, true_and, one_lt_imp p1, one_lt_imp p2, one_lt_imp p3]

/-- With two dimensions, the function reads a third. -/
theorem returnNpNdarrayTyped_two (h : dims.length = 2) :
    returnNpNdarrayTyped sizeofT dims.length dims = none := by
  match dims, h with
  | [_, _], _ => rfl

theorem viewsRowMajor_iff_stridesAgree (hsize : 0 < sizeofT) (hlo : 1 ≤ dims.length)
    (hhi : dims.length ≤ 5) (hpos : ∀ d ∈ dims, 1 ≤ d.toInt)
    (hfits : sizeofT * (extents dims).prod < 2 ^ 63) :
    ViewsRowMajor sizeofT dims ↔ StridesAgree (extents dims) := by
  have hlen : (extents dims).length = dims.length := List.length_map _
  by_cases htwo : dims.length = 2
  · refine iff_of_false ?_ ?_
    · rintro ⟨shape, ws, hret, -⟩
      rw [returnNpNdarrayTyped_two htwo] at hret
      cases hret
    · match dims, htwo with
      | [_, _], _ => exact fun h => h
  · obtain ⟨shape, hret⟩ := returnNpNdarrayTyped_eq hpos hfits hlo hhi htwo
    rw [← hlen] at hlo hhi htwo
    rw [viewsRowMajor_iff hpos hret ((length_widths sizeofT hlo hhi htwo).trans hlen),
      agree_widths_iff hsize (extents_pos hpos) hlo hhi htwo]

end

theorem viewsRowMajor_of_three : ViewsRowMajor 8 [2, 3, 4] :=
  (viewsRowMajor_iff_stridesAgree (by decide) (by decide) (by decide) (by simp)
    (by decide +kernel)).mpr trivial

/-- Two dimensions read a third; in four, the item at (0, 1, 0, 0) is looked for at a wrong place. -/
theorem views_not_rowMajor : ¬ ViewsRowMajor 8 [2, 3] ∧ ¬ ViewsRowMajor 8 [1, 2, 1, 1] := by
  constructor
  · rintro ⟨shape, ws, hret, -⟩
    cases hret
  · rintro ⟨shape, ws, hret, hviews⟩
    obtain rfl : [16, 16, 8, 8] = ws := by
      have hws : returnNpNdarrayTyped 8 4 [1, 2, 1, 1] = some ([1, 2, 1, 1], [16, 16, 8, 8]) := by
        decide +kernel
      exact congrArg Prod.snd (Option.some.inj (hws.symm.trans hret))
    exact absurd (hviews [0, 1, 0, 0] (by decide +kernel)) (by decide +kernel)

end PyAction
end Damaris
