import Mathlib.Tactic

/-!
# Numbers in names

Names are put together from texts and decimal numbers. A number ends where a
character follows that no number has, and begins where one stands before it, so
that it can be read back from a name.
-/
namespace Numeral

/-- The characters of a number. -/
def text (i : ℤ) : List Char := (toString i).toList

/-- The characters that numbers are made of. -/
def isNumeric (c : Char) : Bool := c.isDigit || decide (c = '-')

theorem text_natCast (n : ℕ) : text n = Nat.toDigits 10 n := by
  rw [text]
  exact Nat.toList_repr

theorem text_negSucc (n : ℕ) : text (Int.negSucc n) = '-' :: Nat.toDigits 10 (n + 1) := by
  have happend : toString (Int.negSucc n) = "-" ++ Nat.repr (n + 1) := rfl
  rw [text, happend, String.toList_append, Nat.toList_repr]
  rfl

theorem isDigit_of_mem {n : ℕ} {c : Char} (h : c ∈ Nat.toDigits 10 n) : c.isDigit :=
  Nat.isDigit_of_mem_toDigits (by decide) (by decide) h

theorem toDigits_injective : Function.Injective (Nat.toDigits 10) := by
  intro a b h
  have hread := congrArg (fun ds => Nat.ofDigitChars 10 ds 0) h
  simpa using hread

theorem isNumeric_of_mem {i : ℤ} {c : Char} (h : c ∈ text i) : isNumeric c = true := by
  cases i with
  | ofNat n =>
    rw [Int.ofNat_eq_natCast, text_natCast] at h
    simp [isNumeric, isDigit_of_mem h]
  | negSucc n =>
    rw [text_negSucc, List.mem_cons] at h
    rcases h with rfl | h
    · rfl
    · simp [isNumeric, isDigit_of_mem h]

/-- A sign is no digit. -/
theorem toDigits_ne_cons (n : ℕ) (l : List Char) : Nat.toDigits 10 n ≠ '-' :: l := by
  intro h
  have hdigit := isDigit_of_mem (n := n) (c := '-') (h ▸ List.mem_cons_self)
  exact absurd hdigit (by decide)

theorem text_injective : Function.Injective text := by
  intro i j h
  cases i with
  | ofNat a =>
    cases j with
    | ofNat b =>
      rw [Int.ofNat_eq_natCast, Int.ofNat_eq_natCast, text_natCast, text_natCast] at h
      rw [toDigits_injective h]
    | negSucc b =>
      rw [Int.ofNat_eq_natCast, text_natCast, text_negSucc] at h
      exact absurd h (toDigits_ne_cons _ _)
  | negSucc a =>
    cases j with
    | ofNat b =>
      rw [Int.ofNat_eq_natCast, text_natCast, text_negSucc] at h
      exact absurd h.symm (toDigits_ne_cons _ _)
    | negSucc b =>
      rw [text_negSucc, text_negSucc] at h
      have hdigits := toDigits_injective (List.cons.inj h).2
      rw [Nat.succ.inj hdigits]

/-- Two texts that go on behind their first character without the property have that part in
common. -/
theorem append_cons_inj {α : Type*} {P : α → Bool} {xs ys s t : List α} {c d : α}
    (hxs : ∀ x ∈ xs, P x = true) (hys : ∀ y ∈ ys, P y = true) (hc : P c = false) (hd : P d = false)
    (h : xs ++ c :: s = ys ++ d :: t) : xs = ys ∧ c = d ∧ s = t := by
  induction xs generalizing ys with
  | nil =>
    cases ys with
    | nil => exact ⟨rfl, List.cons.inj h⟩
    | cons y ys =>
      obtain ⟨rfl, -⟩ := List.cons.inj h
      rw [hys c List.mem_cons_self] at hc
      cases hc
  | cons x xs ih =>
    cases ys with
    | nil =>
      obtain ⟨rfl, -⟩ := List.cons.inj h
      rw [hxs x List.mem_cons_self] at hd
      cases hd
    | cons y ys =>
      obtain ⟨rfl, htail⟩ := List.cons.inj h
      obtain ⟨rfl, hrest⟩ := ih (fun z hz => hxs z (List.mem_cons_of_mem x hz))
        (fun z hz => hys z (List.mem_cons_of_mem x hz)) htail
      exact ⟨rfl, hrest⟩

/-- A number at the end of a name is read back, and the text before it. -/
theorem append_text_inj {s t : List Char} {c d : Char} {i j : ℤ} (hc : isNumeric c = false)
    (hd : isNumeric d = false) (h : s ++ c :: text i = t ++ d :: text j) : s = t ∧ c = d ∧ i = j := by
  have hreverse := congrArg List.reverse h
  simp only [List.reverse_append, List.reverse_cons, List.append_assoc, List.singleton_append] at hreverse
  obtain ⟨htext, hsep, hfront⟩ := append_cons_inj
    (fun x hx => isNumeric_of_mem (List.mem_reverse.mp hx))
    (fun x hx => isNumeric_of_mem (List.mem_reverse.mp hx)) hc hd hreverse
  exact ⟨List.reverse_injective hfront, hsep, text_injective (List.reverse_injective htext)⟩

end Numeral
