import Mathlib.Tactic

/-!
# The number of a node

`Hardware::GetNodeID` hashes the name of the processor. The hash has 64 bits, and the number is its
lower half, negated if it is negative: a colour for `MPI_Comm_split`, which must not be negative.
-/
namespace Damaris.Hardware

/-- `fnv`, which is `2^40 + 2^8 + 0xb3`. -/
def fnv : BitVec 64 := (1#64 <<< 40) + (1 <<< 8) + 0xb3

/-- One character. A `char` is signed. -/
def hashChar (nhash : BitVec 64) (c : BitVec 8) : BitVec 64 := (nhash ^^^ c.signExtend 64) * fnv

/-- `ComputeHashValue`. The index is an `unsigned int`, so the loop over a longer string does not
end. -/
def computeHashValue (str : List (BitVec 8)) : Option (BitVec 32) :=
  if str.length < 2 ^ 32 then
    let nhash := str.foldl hashChar 14695981039346656037
    let value := nhash.setWidth 32
    -- the negation of the least `int` wraps around
    some (if 0 ≤ value.toInt then value else -value)
  else none

/-- A colour of `MPI_Comm_split` other than `MPI_UNDEFINED`. -/
def ValidColour (value : BitVec 32) : Prop := 0 ≤ value.toInt ∧ value.toInt ≤ 2 ^ 31 - 1

/-! ## The hash in words of 32 bits -/

def wordHashChar (h : BitVec 32) (c : BitVec 8) : BitVec 32 := (h ^^^ c.signExtend 32) * 435

/-- The same hash with the lower halves of its constants. -/
def wordHash (str : List (BitVec 8)) : BitVec 32 := str.foldl wordHashChar 0x84222325

theorem setWidth_signExtend (c : BitVec 8) : (c.signExtend 64).setWidth 32 = c.signExtend 32 := by
  refine BitVec.eq_of_getLsbD_eq fun i hi => ?_
  have hlt : i < 64 := by omega
  rw [BitVec.getLsbD_setWidth, BitVec.getLsbD_signExtend, BitVec.getLsbD_signExtend]
  simp only [hi, hlt, decide_true, Bool.true_and]

theorem wordHashChar_setWidth (nhash : BitVec 64) (c : BitVec 8) :
    wordHashChar (nhash.setWidth 32) c = (hashChar nhash c).setWidth 32 := by
  have hfnv : fnv.setWidth 32 = 435 := by decide
  rw [hashChar, BitVec.setWidth_mul _ _ (by decide), BitVec.setWidth_xor, setWidth_signExtend, hfnv,
    wordHashChar]

/-- The lower half of the hash depends on lower halves only. -/
theorem setWidth_hash (str : List (BitVec 8)) :
    (str.foldl hashChar 14695981039346656037).setWidth 32 = wordHash str :=
  (List.foldl_hom _ wordHashChar_setWidth).symm

/-- The last character leads to the least `int` from exactly one hash before it. -/
theorem wordHash_concat_eq_intMin_iff (str : List (BitVec 8)) (c : BitVec 8) :
    wordHash (str ++ [c]) = BitVec.intMin 32 ↔
      wordHash str = BitVec.intMin 32 ^^^ c.signExtend 32 := by
  have hodd : (435 : BitVec 32) * 0xaff6957b = 1 := by decide
  have hconcat : wordHash (str ++ [c]) = (wordHash str ^^^ c.signExtend 32) * 435 := by
    rw [wordHash, List.foldl_append]
    rfl
  rw [hconcat]
  constructor
  · intro h
    have hxor : wordHash str ^^^ c.signExtend 32 = BitVec.intMin 32 := by
      calc wordHash str ^^^ c.signExtend 32
          = (wordHash str ^^^ c.signExtend 32) * 435 * 0xaff6957b := by
            rw [BitVec.mul_assoc, hodd]
            exact (BitVec.mul_one _).symm
        _ = BitVec.intMin 32 * 0xaff6957b := by rw [h]
        _ = BitVec.intMin 32 := by decide
    rw [← hxor, BitVec.xor_assoc, BitVec.xor_self, BitVec.xor_zero]
  · intro h
    rw [h, BitVec.xor_assoc, BitVec.xor_self, BitVec.xor_zero]
    decide

theorem validColour_iff (value : BitVec 32) :
    ValidColour (if 0 ≤ value.toInt then value else -value) ↔ value ≠ BitVec.intMin 32 := by
  have hle : ∀ value : BitVec 32, value.toInt ≤ 2 ^ 31 - 1 := fun value => BitVec.toInt_le
  split_ifs with hsign
  · refine iff_of_true ⟨hsign, hle value⟩ ?_
    rintro rfl
    exact absurd hsign (by decide)
  · constructor
    · rintro hvalid rfl
      exact absurd hvalid.1 (by decide)
    · intro hne
      refine ⟨?_, hle _⟩
      rw [BitVec.toInt_neg_of_ne_intMin hne]
      omega

/-- The colour is valid, unless the lower half of the hash is the least `int`. -/
theorem computeHashValue_valid_iff (str : List (BitVec 8)) :
    (∃ value, computeHashValue str = some value ∧ ValidColour value) ↔
      str.length < 2 ^ 32 ∧ wordHash str ≠ BitVec.intMin 32 := by
  rw [computeHashValue]
  split_ifs with hlength
  · dsimp only
    rw [setWidth_hash, and_iff_right hlength, ← validColour_iff]
    constructor
    · rintro ⟨value, hvalue, hvalid⟩
      cases hvalue
      exact hvalid
    · exact fun hvalid => ⟨_, rfl, hvalid⟩
  · exact iff_of_false (fun ⟨_, hvalue, _⟩ => by cases hvalue) fun h => hlength h.1

/-- "nodeq6rv3w". -/
def unluckyName : List (BitVec 8) := [110, 111, 100, 101, 113, 54, 114, 118, 51, 119]

/-- The node of this name has the number -2147483648. -/
theorem not_valid_unluckyName : ¬ ∀ str : List (BitVec 8),
    ∃ value, computeHashValue str = some value ∧ ValidColour value := by
  intro h
  obtain ⟨value, hvalue, hvalid⟩ := h unluckyName
  have hmin : computeHashValue unluckyName = some (BitVec.intMin 32) := by decide +kernel
  obtain rfl := Option.some.inj (hmin.symm.trans hvalue)
  exact absurd hvalid.1 (by decide)

end Damaris.Hardware
