import Mathlib.Tactic

/-!
# Bytes in memory

A machine word is stored lowest byte first. A copy between two buffers and a single store have a
result only if they stay inside the buffers, and a string is read up to its terminator.
-/
namespace Bytes

/-- The lowest `n` bytes of a number, lowest first. -/
def encode : ℕ → ℕ → List UInt8
  | 0, _ => []
  | n + 1, v => UInt8.ofNat v :: encode n (v / 256)

def decode : List UInt8 → ℕ
  | [] => 0
  | b :: bs => b.toNat + 256 * decode bs

@[simp] theorem length_encode (n v : ℕ) : (encode n v).length = n := by
  induction n generalizing v with
  | zero => rfl
  | succ n ih => simp [encode, ih]

theorem decode_encode (n v : ℕ) : decode (encode n v) = v % 256 ^ n := by
  induction n generalizing v with
  | zero => simp [encode, decode, Nat.mod_one]
  | succ n ih =>
    have hb : (UInt8.ofNat v).toNat = v % 256 := UInt8.toNat_ofNat'
    rw [encode, decode, ih, hb, pow_succ', Nat.mod_mul]

/-- A word comes back from its bytes. -/
theorem ofNat_decode_encode {n : ℕ} (v : BitVec (8 * n)) :
    BitVec.ofNat (8 * n) (decode (encode n v.toNat)) = v := by
  have hlt : v.toNat < 256 ^ n := by
    rw [show (256 : ℕ) = 2 ^ 8 by norm_num, ← pow_mul]
    exact v.isLt
  rw [decode_encode, Nat.mod_eq_of_lt hlt, BitVec.ofNat_toNat, BitVec.setWidth_eq]

/-- `memcpy`, with the destination after it. -/
def memcpy (dst src : List UInt8) (n : ℕ) : Option (List UInt8) :=
  if n ≤ dst.length ∧ n ≤ src.length then some (src.take n ++ dst.drop n) else none

theorem memcpy_of_le {dst src : List UInt8} {n : ℕ} (hd : n ≤ dst.length) (hs : n ≤ src.length) :
    memcpy dst src n = some (src.take n ++ dst.drop n) :=
  if_pos ⟨hd, hs⟩

/-- A copy that fills the destination with the whole source. -/
theorem memcpy_all {dst src : List UInt8} (h : dst.length = src.length) :
    memcpy dst src dst.length = some src := by
  rw [memcpy_of_le le_rfl h.le, List.drop_length, List.append_nil, h, List.take_length]

/-- The assignment `dst[i] = b`, with the buffer after it. -/
def store (dst : List UInt8) (i : ℕ) (b : UInt8) : Option (List UInt8) :=
  if i < dst.length then some (dst.set i b) else none

theorem store_of_lt {dst : List UInt8} {i : ℕ} (h : i < dst.length) (b : UInt8) :
    store dst i b = some (dst.set i b) :=
  if_pos h

/-- The string that starts a buffer. Without a terminator the reader leaves the buffer. -/
def cString (buf : List UInt8) : Option (List UInt8) :=
  if 0 ∈ buf then some (buf.takeWhile (· ≠ 0)) else none

theorem cString_append {s : List UInt8} (h : 0 ∉ s) (rest : List UInt8) :
    cString (s ++ 0 :: rest) = some s := by
  have hs : ∀ c ∈ s, decide (c ≠ 0) = true := by
    intro c hc
    exact decide_eq_true (ne_of_mem_of_not_mem hc h)
  rw [cString, if_pos (by simp), List.takeWhile_append_of_pos hs,
    List.takeWhile_cons_of_neg (by simp), List.append_nil]

/-- A terminator stored behind a text makes it the string of the buffer. -/
theorem store_cString {s : List UInt8} (h : 0 ∉ s) (b : UInt8) (rest : List UInt8) :
    (store (s ++ b :: rest) s.length 0).bind cString = some s := by
  rw [store_of_lt (by simp), List.set_append_right _ _ le_rfl, Nat.sub_self, List.set_cons_zero]
  exact cString_append h rest

end Bytes
