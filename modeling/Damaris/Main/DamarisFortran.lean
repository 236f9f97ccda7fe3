import Mathlib.Data.List.DropRight
import Damaris.Lib.Bytes

/-!
# Names passed by Fortran

A Fortran string has no terminator; its length is passed behind the arguments and it is padded with
blanks. `FortranStringToCpp` copies it into a buffer one byte longer, scans back from the end and
writes the terminator behind the byte it stops at. The scan also stops at index 0, whatever stands
there, so the terminator is never written at index 0 itself.
-/
namespace Damaris.Fortran

open Bytes (memcpy store cString)

def blank : UInt8 := 32

/-- The loop `while(fstr_copy[i] == ' ' && i != 0) i--`, with the index it ends at. -/
def lastKept (copy : List UInt8) : ℕ → Option ℕ
  | 0 => copy[0]?.map fun _ => 0
  | i + 1 => copy[i + 1]?.bind fun c => if c = blank then lastKept copy i else some (i + 1)

/-- `FortranStringToCpp`. There is no result if an access leaves the buffer of `size + 1` bytes, or
if `size + 1` leaves the range of `int`. -/
def fortranStringToCpp (fstr : List UInt8) (size : ℕ) : Option (List UInt8) :=
  if 2 ^ 31 ≤ size + 1 then none
  else do
    let copy ← memcpy (List.replicate (size + 1) blank) fstr size
    let i ← lastKept copy size
    let copy ← store copy (i + 1) 0
    cString copy

theorem lastKept_stop {copy : List UInt8} {i : ℕ} {c : UInt8} (hi : copy[i]? = some c)
    (hc : c ≠ blank) : lastKept copy i = some i := by
  cases i with
  | zero => rw [lastKept, hi, Option.map_some]
  | succ i => rw [lastKept, hi, Option.bind_some, if_neg hc]

/-- The scan runs through blanks. -/
theorem lastKept_run {copy : List UInt8} {i k : ℕ}
    (h : ∀ j < k, copy[i + j + 1]? = some blank) : lastKept copy (i + k) = lastKept copy i := by
  induction k with
  | zero => rfl
  | succ k ih =>
    have hk : copy[i + k + 1]? = some blank := h k k.lt_succ_self
    rw [← Nat.add_assoc, lastKept, hk, Option.bind_some, if_pos rfl]
    exact ih fun j hj => h j (hj.trans k.lt_succ_self)

theorem padded_concat (u : List UInt8) (c : UInt8) (n : ℕ) :
    u ++ c :: List.replicate n blank ++ [blank] = u ++ c :: List.replicate (n + 1) blank := by
  rw [List.append_assoc, List.cons_append, ← List.replicate_succ']

theorem not_mem_text {u : List UInt8} {b c : UInt8} {n : ℕ}
    (h : b ∉ u ++ c :: List.replicate n blank) : b ∉ u ++ [c] := by
  intro hb
  rw [← List.singleton_append, ← List.append_assoc] at h
  exact h (List.mem_append_left _ hb)

/-- The scan of a padded text ends at the last byte of the text. -/
theorem lastKept_padded (u : List UInt8) {c : UInt8} (hc : c ≠ blank) (n : ℕ) :
    lastKept (u ++ c :: List.replicate n blank) (u.length + n) = some u.length := by
  rw [lastKept_run]
  · exact lastKept_stop (by simp) hc
  · intro j hj
    rw [Nat.add_assoc, List.getElem?_append_right (Nat.le_add_right _ _), Nat.add_sub_cancel_left,
      List.getElem?_cons_succ, List.getElem?_replicate_of_lt hj]

/-- The scan of blanks ends at the front. -/
theorem lastKept_blanks (n : ℕ) : lastKept (List.replicate (n + 1) blank) n = some 0 := by
  have hrun : ∀ j < n, (List.replicate (n + 1) blank)[0 + j + 1]? = some blank := by
    intro j hj
    exact List.getElem?_replicate_of_lt (by omega)
  have hn := lastKept_run hrun
  rw [Nat.zero_add] at hn
  rw [hn, lastKept, List.getElem?_replicate_of_lt n.succ_pos, Option.map_some]

theorem fortranStringToCpp_eq {fstr : List UInt8} (h : fstr.length + 1 < 2 ^ 31) :
    fortranStringToCpp fstr fstr.length = (lastKept (fstr ++ [blank]) fstr.length).bind fun i =>
      (store (fstr ++ [blank]) (i + 1) 0).bind cString := by
  have hcopy : memcpy (List.replicate (fstr.length + 1) blank) fstr fstr.length =
      some (fstr ++ [blank]) := by
    rw [Bytes.memcpy_of_le (by simp) le_rfl, List.take_length, List.drop_replicate,
      Nat.add_sub_cancel_left, List.replicate_one]
  rw [fortranStringToCpp, if_neg h.not_ge, hcopy]
  rfl

/-- Padding is taken off again: a name that ends in a byte other than a blank is what the library
gets for it, whatever the length of the variable that holds it. -/
theorem fortranStringToCpp_padded {u : List UInt8} {c : UInt8} {n : ℕ} (hc : c ≠ blank)
    (hnul : 0 ∉ u ++ [c]) (hn : (u ++ c :: List.replicate n blank).length + 1 < 2 ^ 31) :
    fortranStringToCpp (u ++ c :: List.replicate n blank)
      (u ++ c :: List.replicate n blank).length = some (u ++ [c]) := by
  have hlen : (u ++ c :: List.replicate n blank).length = u.length + (n + 1) := by simp
  rw [fortranStringToCpp_eq hn, padded_concat, hlen, lastKept_padded u hc, Option.bind_some]
  have h := Bytes.store_cString hnul blank (List.replicate n blank)
  rwa [List.append_assoc, List.singleton_append, List.length_append, List.length_singleton] at h

/-- Of blanks alone the first one is kept. -/
theorem fortranStringToCpp_blanks {n : ℕ} (hn : n + 2 < 2 ^ 31) :
    fortranStringToCpp (List.replicate (n + 1) blank) (List.replicate (n + 1) blank).length =
      some [blank] := by
  have hlen : (List.replicate (n + 1) blank).length = n + 1 := List.length_replicate
  rw [fortranStringToCpp_eq (by rw [hlen]; exact hn), ← List.replicate_succ', hlen, lastKept_blanks]
  have hnul : 0 ∉ [blank] := by decide
  exact Bytes.store_cString hnul blank (List.replicate n blank)

/-- The terminator of an empty name is written behind the buffer. -/
theorem fortranStringToCpp_nil : fortranStringToCpp [] 0 = none := by
  rfl

theorem fortranStringToCpp_of_le {fstr : List UInt8} {size : ℕ} (h : 2 ^ 31 ≤ size + 1) :
    fortranStringToCpp fstr size = none :=
  if_pos h

/-- A string is blank, or a text that ends in another byte with padding behind it. -/
theorem eq_blanks_or_padded (fstr : List UInt8) :
    (∃ n, fstr = List.replicate n blank) ∨
      ∃ u c n, c ≠ blank ∧ fstr = u ++ c :: List.replicate n blank := by
  -- the padding is at the end, so the string is taken apart from there
  induction fstr using List.reverseRecOn with
  | nil => exact .inl ⟨0, rfl⟩
  | append_singleton fstr x ih =>
    by_cases hx : x = blank
    · rw [hx]
      rcases ih with ⟨n, rfl⟩ | ⟨u, c, n, hc, rfl⟩
      · exact .inl ⟨n + 1, List.replicate_succ'.symm⟩
      · exact .inr ⟨u, c, n + 1, hc, padded_concat u c n⟩
    · exact .inr ⟨fstr, x, 0, hx, rfl⟩

theorem trim_blanks (n : ℕ) : (List.replicate n blank).rdropWhile (· = blank) = [] := by
  refine List.rdropWhile_eq_nil_iff.mpr fun c hc => ?_
  exact decide_eq_true (List.eq_of_mem_replicate hc)

theorem trim_padded (u : List UInt8) {c : UInt8} (hc : c ≠ blank) (n : ℕ) :
    (u ++ c :: List.replicate n blank).rdropWhile (· = blank) = u ++ [c] := by
  induction n with
  | zero => exact List.rdropWhile_concat_neg _ _ _ (by simpa using hc)
  | succ n ih => rw [← padded_concat, List.rdropWhile_concat, if_pos (decide_eq_true rfl), ih]

/-- The accesses stay inside the buffer for every string but the empty one, while the size of the
buffer is an `int`. -/
theorem fortranStringToCpp_isSome_iff {fstr : List UInt8} (hnul : 0 ∉ fstr) :
    (fortranStringToCpp fstr fstr.length).isSome ↔ fstr ≠ [] ∧ fstr.length + 1 < 2 ^ 31 := by
  by_cases hlen : fstr.length + 1 < 2 ^ 31
  · rcases eq_blanks_or_padded fstr with ⟨_ | n, rfl⟩ | ⟨u, c, n, hc, rfl⟩
    · simp [fortranStringToCpp_nil]
    · rw [List.length_replicate] at hlen
      rw [fortranStringToCpp_blanks hlen]
      simpa using hlen
    · rw [fortranStringToCpp_padded hc (not_mem_text hnul) hlen]
      simpa using hlen
  · rw [fortranStringToCpp_of_le (not_lt.mp hlen)]
    exact iff_of_false (fun h => by cases h) fun h => hlen h.2

/-- The trailing blanks, and nothing else, are removed from exactly the strings that have another
byte. -/
theorem fortranStringToCpp_trims_iff {fstr : List UInt8} (hnul : 0 ∉ fstr) :
    fortranStringToCpp fstr fstr.length = some (fstr.rdropWhile (· = blank)) ↔
      fstr.length + 1 < 2 ^ 31 ∧ ∃ c ∈ fstr, c ≠ blank := by
  by_cases hlen : fstr.length + 1 < 2 ^ 31
  · rcases eq_blanks_or_padded fstr with ⟨n, rfl⟩ | ⟨u, c, n, hc, rfl⟩
    · have hblank : ¬ ∃ c ∈ List.replicate n blank, c ≠ blank := by
        rintro ⟨c, hc, hcb⟩
        exact hcb (List.eq_of_mem_replicate hc)
      refine iff_of_false (fun h => ?_) fun h => hblank h.2
      rw [trim_blanks] at h
      cases n with
      | zero => cases h.symm.trans fortranStringToCpp_nil
      | succ n =>
        rw [List.length_replicate] at hlen
        cases h.symm.trans (fortranStringToCpp_blanks hlen)
    · rw [trim_padded u hc]
      refine iff_of_true (fortranStringToCpp_padded hc (not_mem_text hnul) hlen) ⟨hlen, c, ?_, hc⟩
      exact List.mem_append_right _ List.mem_cons_self
  · rw [fortranStringToCpp_of_le (not_lt.mp hlen)]
    exact iff_of_false (fun h => by cases h) fun h => hlen h.1

theorem fortranStringToCpp_trims_padded :
    fortranStringToCpp [112, 32, 113, 32, 32] 5 = some [112, 32, 113] :=
  (@fortranStringToCpp_trims_iff [112, 32, 113, 32, 32] (by decide)).mpr
    ⟨by decide, 112, by decide, by decide⟩

/-- A name of blanks becomes a name of one blank, not the empty one. -/
theorem fortranStringToCpp_keeps_blank :
    ¬ ∀ fstr : List UInt8, 0 ∉ fstr → fstr.length < 2 ^ 31 →
      fortranStringToCpp fstr fstr.length = some (fstr.rdropWhile (· = blank)) := by
  intro h
  cases h [blank, blank] (by decide) (by decide)

end Damaris.Fortran
