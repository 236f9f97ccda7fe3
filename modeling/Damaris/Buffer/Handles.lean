import Mathlib.Tactic

/-!
# Handles of composite segments

A handle is an offset in one block of a composite segment, tagged with the block. Two processes
have the blocks at different addresses.
-/
namespace Damaris.Buffer

/-- `Handle`: the handle of the Boost buffer, and the id of the block. -/
structure Handle where
  value : ℤ
  objectId : ℤ

/-- `Handle()` leaves the value as it is. -/
def Handle.null (value : ℤ) : Handle := ⟨value, -1⟩

/-- The buffer of a block in one process, on addresses. -/
structure ExternalBuffer where
  belongsToSegment : ℕ → Bool
  getHandleFromAddress : ℕ → ℤ
  getAddressFromHandle : ℤ → ℕ

/-- The address lies in the block at `base` of this size. -/
def Inside (base size p : ℕ) : Prop := base ≤ p ∧ p < base + size

/-- A Boost buffer knows its addresses, and translates them to offsets and back. -/
structure ExternalBuffer.Translates (b : ExternalBuffer) (base size : ℕ) : Prop where
  belongs : ∀ p, b.belongsToSegment p = true ↔ Inside base size p
  handle : ∀ o < size, b.getHandleFromAddress (base + o) = o
  address : ∀ o < size, b.getAddressFromHandle o = base + o

/-- `CompositeShMem`; `nbseg_` is the number of its blocks. -/
structure CompositeShMem where
  blocks : List ExternalBuffer

namespace CompositeShMem

/-- `GetAddressFromHandle`: `none` for `NULL`. -/
def getAddressFromHandle (c : CompositeShMem) (h : Handle) : Option ℕ :=
  if h.objectId < 0 ∨ h.objectId ≥ c.blocks.length then none
  else c.blocks[h.objectId.toNat]?.map fun b => b.getAddressFromHandle h.value

/-- `GetHandleFromAddress`, with what a handle has for a value that is not given one. -/
def getHandleFromAddress (c : CompositeShMem) (uninitialised : ℤ) (p : ℕ) : Handle :=
  match c.blocks.findIdx? fun b => b.belongsToSegment p with
  | none => .null uninitialised
  | some id => ⟨(c.blocks[id]?.map fun b => b.getHandleFromAddress p).getD uninitialised, id⟩

/-- The blocks are mapped at these addresses. -/
def Mapped (c : CompositeShMem) (base size : ℕ → ℕ) : Prop :=
  ∀ (i : ℕ) (b : ExternalBuffer), c.blocks[i]? = some b → b.Translates (base i) (size i)

/-- No address lies in two blocks. -/
def Apart (c : CompositeShMem) (base size : ℕ → ℕ) : Prop :=
  ∀ i j p, i < c.blocks.length → j < c.blocks.length → Inside (base i) (size i) p →
    Inside (base j) (size j) p → i = j

section

variable {c c' : CompositeShMem} {base base' size : ℕ → ℕ}

/-- The search ends at the block of the address. -/
theorem findIdx?_of_inside (hm : c.Mapped base size) (ha : c.Apart base size) {i p : ℕ}
    (hi : i < c.blocks.length) (hp : Inside (base i) (size i) p) :
    c.blocks.findIdx? (fun b => b.belongsToSegment p) = some i := by
  rw [List.findIdx?_eq_some_iff_getElem]
  refine ⟨hi, (hm i _ (List.getElem?_eq_getElem hi)).belongs p |>.mpr hp, fun j hj hbelongs => ?_⟩
  have hjlen : j < c.blocks.length := hj.trans hi
  have hin := ((hm j _ (List.getElem?_eq_getElem hjlen)).belongs p).mp hbelongs
  exact absurd (ha j i p hjlen hi hin hp) hj.ne

/-- An address in a block becomes its offset there. -/
theorem getHandleFromAddress_of_inside (hm : c.Mapped base size) (ha : c.Apart base size) {i o : ℕ}
    (hi : i < c.blocks.length) (ho : o < size i) (u : ℤ) :
    c.getHandleFromAddress u (base i + o) = ⟨o, i⟩ := by
  have hp : Inside (base i) (size i) (base i + o) := ⟨by omega, by omega⟩
  rw [getHandleFromAddress, findIdx?_of_inside hm ha hi hp]
  simp only [List.getElem?_eq_getElem hi, Option.map_some, Option.getD_some,
    (hm i _ (List.getElem?_eq_getElem hi)).handle o ho]

theorem getHandleFromAddress_of_outside (hm : c.Mapped base size) {p : ℕ}
    (hp : ∀ i < c.blocks.length, ¬ Inside (base i) (size i) p) (u : ℤ) :
    c.getHandleFromAddress u p = .null u := by
  have hnone : c.blocks.findIdx? (fun b => b.belongsToSegment p) = none := by
    rw [List.findIdx?_eq_none_iff]
    intro b hb
    obtain ⟨i, hi, rfl⟩ := List.getElem_of_mem hb
    have hbelongs := (hm i _ (List.getElem?_eq_getElem hi)).belongs p
    exact Bool.not_eq_true _ |>.mp fun htrue => hp i hi (hbelongs.mp htrue)
  rw [getHandleFromAddress, hnone]

/-- An offset is resolved where the block is mapped. -/
theorem getAddressFromHandle_offset (hm : c.Mapped base size) {i o : ℕ} (hi : i < c.blocks.length)
    (ho : o < size i) : c.getAddressFromHandle ⟨o, i⟩ = some (base i + o) := by
  have hid : ¬ ((i : ℤ) < 0 ∨ (i : ℤ) ≥ c.blocks.length) := by omega
  rw [getAddressFromHandle, if_neg hid]
  simp only [Int.toNat_natCast, List.getElem?_eq_getElem hi, Option.map_some,
    (hm i _ (List.getElem?_eq_getElem hi)).address o ho]

theorem getAddressFromHandle_null (c : CompositeShMem) (u : ℤ) :
    c.getAddressFromHandle (.null u) = none := by
  rw [getAddressFromHandle, if_pos (.inl (show (-1 : ℤ) < 0 by decide))]

/-- Handles lead from one process to the same offset of the same block in the other, and back to the
same address in the first; addresses outside lead nowhere. -/
theorem handles_round_trip (hm : c.Mapped base size) (ha : c.Apart base size)
    (hm' : c'.Mapped base' size) (hlen : c'.blocks.length = c.blocks.length) (u : ℤ) :
    (∀ i < c.blocks.length, ∀ o < size i,
      c'.getAddressFromHandle (c.getHandleFromAddress u (base i + o)) = some (base' i + o) ∧
        c.getAddressFromHandle (c.getHandleFromAddress u (base i + o)) = some (base i + o)) ∧
      ∀ p, (∀ i < c.blocks.length, ¬ Inside (base i) (size i) p) →
        ∀ d : CompositeShMem, d.getAddressFromHandle (c.getHandleFromAddress u p) = none := by
  constructor
  · intro i hi o ho
    rw [getHandleFromAddress_of_inside hm ha hi ho]
    exact ⟨getAddressFromHandle_offset hm' (hlen ▸ hi) ho, getAddressFromHandle_offset hm hi ho⟩
  · intro p hp d
    rw [getHandleFromAddress_of_outside hm hp]
    exact d.getAddressFromHandle_null u

end

end CompositeShMem

/-- A buffer that counts from its base. -/
def ExternalBuffer.at (base size : ℕ) : ExternalBuffer where
  belongsToSegment p := decide (base ≤ p ∧ p < base + size)
  getHandleFromAddress p := (p : ℤ) - base
  getAddressFromHandle h := ((base : ℤ) + h).toNat

theorem ExternalBuffer.at_translates (base size : ℕ) :
    (ExternalBuffer.at base size).Translates base size where
  belongs p := decide_eq_true_iff
  handle o _ := by simp [ExternalBuffer.at]
  address o _ := by simp [ExternalBuffer.at]; omega

namespace CompositeShMem

/-- So many blocks of one size, at the given distance from each other. -/
def spaced (base distance size n : ℕ) : CompositeShMem :=
  ⟨(List.range n).map fun i => ExternalBuffer.at (base + distance * i) size⟩

theorem spaced_mapped (base distance size n : ℕ) :
    (spaced base distance size n).Mapped (fun i => base + distance * i) fun _ => size := by
  intro i b hb
  simp only [spaced, List.getElem?_map, Option.map_eq_some_iff] at hb
  obtain ⟨j, hj, rfl⟩ := hb
  obtain ⟨-, rfl⟩ := List.getElem?_eq_some_iff.mp hj
  simpa using ExternalBuffer.at_translates _ size

theorem spaced_apart {base distance size n : ℕ} (h : size ≤ distance) :
    (spaced base distance size n).Apart (fun i => base + distance * i) fun _ => size := by
  rintro i j p - - ⟨hi, hi'⟩ ⟨hj, hj'⟩
  dsimp only at hi hi' hj hj'
  have hij : distance * i < distance * (j + 1) := by rw [Nat.mul_succ]; omega
  have hji : distance * j < distance * (i + 1) := by rw [Nat.mul_succ]; omega
  have hi_le := Nat.lt_of_mul_lt_mul_left hij
  have hj_le := Nat.lt_of_mul_lt_mul_left hji
  omega

/-- Two blocks, at 4096 and 12288 in one process, at 65536 and 69632 in the other. -/
theorem handles_round_trip_two :
    (∀ i < 2, ∀ o < 4000,
      (spaced 65536 4096 4000 2).getAddressFromHandle
          ((spaced 4096 8192 4000 2).getHandleFromAddress 0 (4096 + 8192 * i + o)) =
        some (65536 + 4096 * i + o) ∧
      (spaced 4096 8192 4000 2).getAddressFromHandle
          ((spaced 4096 8192 4000 2).getHandleFromAddress 0 (4096 + 8192 * i + o)) =
        some (4096 + 8192 * i + o)) ∧
    ∀ p, (∀ i < 2, ¬ Inside (4096 + 8192 * i) 4000 p) → ∀ d : CompositeShMem,
      d.getAddressFromHandle ((spaced 4096 8192 4000 2).getHandleFromAddress 0 p) = none :=
  handles_round_trip (spaced_mapped 4096 8192 4000 2) (spaced_apart (by decide))
    (spaced_mapped 65536 4096 4000 2) rfl 0

end CompositeShMem
end Damaris.Buffer
