import Mathlib.Tactic
import Damaris.Data.LayoutChecks

/-!
# Divisions by parameters

A divisor in a descriptor can be any expression over the parameters. `Calc` divides by it
whenever a parameter that the layout observes is set, and does not look at it before. What
the values have to be for no layout to divide by zero is said here about the texts.
-/
namespace Damaris

open Calc BoxLayout

/-- Interpreting one of the descriptors comes to a division by zero. -/
def LayoutModel.DividesByZero (mdl : LayoutModel) (sym : Str → Option ℤ) : Prop :=
  Calc.DividesByZero sym (tokens mdl.dimensions) ∨
    (mdl.global ≠ ['#'] ∧ Calc.DividesByZero sym (tokens mdl.global)) ∨
      (mdl.ghosts ≠ ['#'] ∧ Calc.DividesByZero sym (tokens (replaceColon mdl.ghosts)))

namespace BoxLayout

variable {default : Language} {sym : Str → Option ℤ} {reversed : Bool} {str : Str}
  {extents : List ℤ} {mdl : LayoutModel}

/-- The second pass over the ghosts computes nothing. -/
theorem fillGhosts_fault {e : List ℤ} {s : Str} {i : ℕ} {f : Bool} {acc : List (ℕ × ℕ)}
    {fault : Fault} (h : fillGhosts e s i f acc = .error fault) : fault = .outOfRange := by
  induction s generalizing i f acc with
  | nil => simp [fillGhosts] at h
  | cons c s ih =>
    simp only [fillGhosts] at h
    split_ifs at h with hcolon hf hend
    · cases hg : e[i]? with
      | none => simpa [hg, eq_comm] using h
      | some g => exact ih (by simpa [hg] using h)
    · cases hg : e[i]? with
      | none => simpa [hg, eq_comm] using h
      | some g =>
        cases f with
        | false => exact ih (by simpa [hg] using h)
        | true =>
          cases hlast : acc.getLast? with
          | none => simpa [hg, hlast, eq_comm] using h
          | some last => exact ih (by simpa [hg, hlast] using h)
    · exact ih h

theorem interpretExtents_error {complaint : Complaint} {fault : Fault}
    (h : (interpretExtents sym reversed complaint str).outcome = .error fault) :
    (phraseParse sym str).outcome = .error fault := by
  rcases Traced.outcome_bind_eq_error.mp h with h | ⟨r, -, h⟩
  · exact h
  · simp at h

theorem interpretGlobal_error {fault : Fault}
    (h : (interpretGlobal sym reversed str extents).outcome = .error fault) :
    str ≠ ['#'] ∧ (phraseParse sym str).outcome = .error fault := by
  rw [interpretGlobal] at h
  split_ifs at h with hsharp
  exact ⟨hsharp, interpretExtents_error h⟩

theorem interpretGhosts_error
    (h : (interpretGhosts sym reversed str extents).outcome = .error .divisionByZero) :
    str ≠ ['#'] ∧ (phraseParse sym (replaceColon str)).outcome = .error .divisionByZero := by
  rw [interpretGhosts] at h
  split_ifs at h with hsharp
  refine ⟨hsharp, ?_⟩
  rcases Traced.outcome_bind_eq_error.mp h with h | ⟨r, -, h⟩
  · exact h
  rcases Traced.outcome_bind_eq_error.mp h with h | ⟨filled, -, h⟩
  · cases fillGhosts_fault h
  · simp at h

/-- An interpretation divides by zero only where its model does. -/
theorem dividesByZero_of_interpretDimensions
    (h : (interpretDimensions default sym mdl).outcome = .error .divisionByZero) :
    mdl.DividesByZero sym := by
  rcases Traced.outcome_bind_eq_error.mp h with h | ⟨extents, -, h⟩
  · exact .inl (dividesByZero_of_fault (interpretExtents_error h))
  rcases Traced.outcome_bind_eq_error.mp h with h | ⟨globals, -, h⟩
  · obtain ⟨hsharp, h⟩ := interpretGlobal_error h
    exact .inr (.inl ⟨hsharp, dividesByZero_of_fault h⟩)
  rcases Traced.outcome_bind_eq_error.mp h with h | ⟨ghosts, -, h⟩
  · obtain ⟨hsharp, h⟩ := interpretGhosts_error h
    exact .inr (.inr ⟨hsharp, dividesByZero_of_fault h⟩)
  · simp at h

/-- An interpretation that returns has divided by no zero. -/
theorem not_dividesByZero_of_ok {v : Vectors} {errors : List Str}
    (h : (interpretDimensions default sym mdl).outcome = .ok (v, errors)) :
    ¬ mdl.DividesByZero sym := by
  obtain ⟨⟨r, hr, -⟩, hglobal, hghosts⟩ := interpreted_of_ok h
  rintro (h0 | ⟨hsharp, h0⟩ | ⟨hsharp, h0⟩)
  · exact not_ok_of_dividesByZero h0 r hr
  · rcases hglobal with ⟨hg, -⟩ | ⟨-, r', hr', -⟩
    · exact hsharp hg
    · exact not_ok_of_dividesByZero h0 r' hr'
  · rcases hghosts with ⟨hz, -⟩ | ⟨-, r', filled, hr', -⟩
    · exact hsharp hz
    · exact not_ok_of_dividesByZero h0 r' hr'

end BoxLayout

namespace Registry

variable {default : Language} {w w' : Registry} {n : Str} {buffer : List UInt8}

/-- The registry with the parameter's bytes written, and nobody notified. -/
def written (n : Str) (buffer : List UInt8) (w : Registry) : Registry :=
  match w.params n with
  | none => w
  | some p => w.setParam n (p.fromBuffer buffer)

/-- No layout that the call notifies divides by zero under the values it leaves. -/
def CallSafe (n : Str) (buffer : List UInt8) (w : Registry) : Prop :=
  ∀ ptr l, w.Observes ptr n → w.layouts ptr = some l →
    ¬ l.model.DividesByZero (w.written n buffer).sym

/-- `damaris_parameter_set`, one call after the other. -/
def parameterSets (default : Language) : List (Str × List UInt8) → Registry → Except Fault Registry
  | [], w => .ok w
  | (n, buffer) :: calls, w =>
    match w.fromBuffer default n buffer with
    | .error e => .error e
    | .ok w' => parameterSets default calls w'

/-- Every call of the sequence is safe in the state it is made in. -/
def CallsSafe (default : Language) : List (Str × List UInt8) → Registry → Prop
  | [], _ => True
  | (n, buffer) :: calls, w => w.CallSafe n buffer ∧
    ∀ w', w.fromBuffer default n buffer = .ok w' → CallsSafe default calls w'

theorem fromBuffer_ne_divisionByZero (hi : Inv default w) (h : w.CallSafe n buffer) :
    w.fromBuffer default n buffer ≠ .error .divisionByZero := by
  intro herror
  obtain ⟨p, ptr, l, hp, hl, hn, hfault⟩ := fromBuffer_fault hi herror
  refine h ptr l ((hi.registered ptr n).mpr ⟨l, hl, hn⟩) hl ?_
  rw [written, hp]
  exact dividesByZero_of_interpretDimensions hfault

theorem callSafe_of_ok (h : w.fromBuffer default n buffer = .ok w') :
    w.CallSafe n buffer := by
  rintro ptr l ⟨p, hp, hmem⟩ hl
  rw [Registry.fromBuffer, hp] at h
  obtain ⟨l', vectors, errors, hl', hint, -⟩ := (changed_spec h).notified ptr hmem
  obtain rfl := Option.some.inj (hl.symm.trans hl')
  rw [written, hp]
  exact not_dividesByZero_of_ok hint

/-- A layout of `8/n` elements, with 2 for `n`. -/
def quotient : Option Registry :=
  StepSystem.run (step .c) (initial fun n => if n = ['n'] then some 2 else none)
    [.new 0 ⟨"parts".toList, "8/n".toList, ['#'], ['#'], .c⟩ "parts".toList]

theorem quotient_isSome : quotient.isSome = true := by decide +kernel

end Registry
end Damaris
