import Mathlib.Tactic
import Damaris.Util.Calc

/-!
# `BoxLayout`

A layout's extents, global extents and ghost zones are computed from three
descriptors. Two scanners read these: `ObserveDependentParameters` collects the
parameters to observe character by character, and `InterpretDimensions` hands the
descriptors to `Calc`, which looks parameters up on its own.
-/
namespace Damaris

inductive Language
  | unknown
  | fortran
  | c
  | cpp
  | python
  | r
  deriving DecidableEq

/-- `model::Layout`, as far as a layout reads it. -/
structure LayoutModel where
  name : Str
  dimensions : Str
  global : Str
  ghosts : Str
  language : Language
  deriving DecidableEq

/-- `extents_`, `global_extents_` and `ghosts_`. -/
structure Vectors where
  extents : List ℤ
  globalExtents : List ℤ
  ghosts : List (ℕ × ℕ)
  deriving DecidableEq

namespace BoxLayout

open Calc

/-! ### `ObserveDependentParameters` -/

/-- The loop over the characters. A name ends at the first character that is not
of a word, or with the text. -/
def scan (reading : Bool) (buffer : Str) : Str → List Str
  | [] => []
  | c :: dims =>
    let start := isWordStart c && !reading
    let reading := reading || start
    let buffer := if start then [] else buffer
    if reading then
      let buffer := if isWord c then buffer ++ [c] else buffer
      if !isWord c || dims.isEmpty then buffer :: scan false buffer dims
      else scan true buffer dims
    else scan false buffer dims

def words (dims : Str) : List Str := scan false [] dims

/-- The names that are searched for, in order. -/
def dependentParameters (mdl : LayoutModel) : List Str :=
  words (mdl.dimensions ++ ' ' :: (mdl.global ++ ' ' :: mdl.ghosts))

/-! ### `InterpretDimensions` -/

/-- What is logged; the interpretation goes on. -/
inductive Complaint
  | dimensions
  | global
  | globalSize
  | ghosts
  | ghostsSize
  deriving DecidableEq

def Complaint.text (name : Str) : Complaint → Str
  | .dimensions => "While parsing dimension descriptor for layout \"".toList ++ name ++ ['"']
  | .global => "While parsing global dimension descriptor for layout \"".toList ++ name ++ ['"']
  | .globalSize => "While parsing global descriptor for layour \"".toList ++ name ++
      "\", number of dimensions does not match".toList
  | .ghosts => "While parsing ghost descriptor for layout \"".toList ++ name ++ ['"']
  | .ghostsSize => "While ghost descriptor for layout \"".toList ++ name ++
      "\" has an incorrect number of dimensions".toList

/-- Fortran lists the dimensions the other way round. -/
def reversed (default : Language) (mdl : LayoutModel) : Bool :=
  mdl.language = .fortran || (mdl.language = .unknown && default = .fortran)

def oriented {α : Type} (reversed : Bool) (l : List α) : List α := if reversed then l.reverse else l

def complainUnless (ok : Bool) (complaint : Complaint) : List Complaint :=
  if ok then [] else [complaint]

/-- Parses one descriptor; what it got up to an error is kept. -/
def interpretExtents (sym : Str → Option ℤ) (reversed : Bool) (complaint : Complaint) (str : Str) :
    Traced Str Fault (List ℤ × List Complaint) :=
  phraseParse sym str >>= fun r =>
    pure (oriented reversed r.values, complainUnless r.complete complaint)

def interpretGlobal (sym : Str → Option ℤ) (reversed : Bool) (str : Str) (extents : List ℤ) :
    Traced Str Fault (List ℤ × List Complaint) :=
  if str = ['#'] then pure (extents, []) else interpretExtents sym reversed .global str

/-- The second pass over the ghost descriptor: `i` counts the values used, `f`
says that the second member of a pair is due. The flag returned says that the
pass broke off with an error. -/
def fillGhosts (e : List ℤ) : Str → ℕ → Bool → List (ℕ × ℕ) → Except Fault (List (ℕ × ℕ) × Bool)
  | [], _, _, ghosts => .ok (ghosts, false)
  | c :: str, i, f, ghosts =>
    if c = ':' then
      if f then .ok (ghosts, true)
      else
        match e[i]? with
        | none => .error .outOfRange
        | some g => fillGhosts e str (i + 1) true (ghosts ++ [(Data.toSize g, 0)])
    else if c = ',' ∨ str.isEmpty then
      match e[i]?, f, ghosts.getLast? with
      | none, _, _ => .error .outOfRange
      | some g, false, _ => fillGhosts e str (i + 1) false (ghosts ++ [(Data.toSize g, Data.toSize g)])
      | some _, true, none => .error .outOfRange
      | some g, true, some last =>
        fillGhosts e str (i + 1) false (ghosts.dropLast ++ [(last.1, Data.toSize g)])
    else fillGhosts e str i f ghosts

/-- `std::replace` of ':' by ','. -/
def replaceColon (str : Str) : Str := str.map fun c => if c = ':' then ',' else c

def interpretGhosts (sym : Str → Option ℤ) (reversed : Bool) (str : Str) (extents : List ℤ) :
    Traced Str Fault (List (ℕ × ℕ) × List Complaint) :=
  if str = ['#'] then pure (extents.map fun _ => (0, 0), [])
  else phraseParse sym (replaceColon str) >>= fun r =>
    Traced.lift (fillGhosts r.values str 0 false []) >>= fun filled =>
      pure (oriented reversed filled.1,
        complainUnless r.complete .ghosts ++ complainUnless (!filled.2) .ghosts ++
          complainUnless (filled.1.length = extents.length) .ghostsSize)

/-- What the vectors become, and what is logged. -/
def interpretDimensions (default : Language) (sym : Str → Option ℤ) (mdl : LayoutModel) :
    Traced Str Fault (Vectors × List Str) :=
  let reversed := reversed default mdl
  interpretExtents sym reversed .dimensions mdl.dimensions >>= fun extents =>
    interpretGlobal sym reversed mdl.global extents.1 >>= fun globals =>
      interpretGhosts sym reversed mdl.ghosts extents.1 >>= fun ghosts =>
        let complaints := extents.2 ++ globals.2 ++
          complainUnless (extents.1.length = globals.1.length) .globalSize ++ ghosts.2
        pure (⟨extents.1, globals.1, ghosts.1⟩, complaints.map (Complaint.text mdl.name))

/-! ### The names that the loop finds -/

/-- Outside a name the buffer does not matter. -/
theorem scan_false (buffer s : Str) : scan false buffer s = words s := by
  have hany : ∀ buffer buffer' s, scan false buffer s = scan false buffer' s := by
    intro buffer buffer' s
    induction s generalizing buffer buffer' with
    | nil => rfl
    | cons c s ih =>
      cases hc : isWordStart c with
      | true => simp [scan, hc]
      | false => simp [scan, hc, ih buffer buffer']
  exact hany buffer [] s

@[simp] theorem words_nil : words [] = [] := rfl

theorem words_skip {c : Char} (hc : isWordStart c = false) (s : Str) : words (c :: s) = words s := by
  rw [words, scan]
  simp only [hc, Bool.false_and, Bool.or_false, Bool.false_eq_true, if_false, scan_false]

/-- Inside a name, and with characters left, the name ends where its word does. -/
theorem scan_true (buffer : Str) {s : Str} (hs : s ≠ []) :
    scan true buffer s = (buffer ++ s.takeWhile isWord) :: words (s.dropWhile isWord) := by
  induction s generalizing buffer with
  | nil => exact absurd rfl hs
  | cons c s ih =>
    rw [scan, List.takeWhile_cons, List.dropWhile_cons]
    cases hc : isWord c with
    | false =>
      have hstart : isWordStart c = false :=
        Bool.eq_false_iff.mpr fun h => by simp [isWord_of_isWordStart h] at hc
      simp [scan_false, words_skip hstart]
    | true =>
      cases s with
      | nil => simp [scan]
      | cons d s =>
        have hne : d :: s ≠ [] := List.cons_ne_nil d s
        simp [ih (buffer ++ [c]) hne]

theorem words_word {c : Char} (hc : isWordStart c = true) (s : Str) :
    words (c :: s) = (c :: s.takeWhile isWord) :: words (s.dropWhile isWord) := by
  rw [words, scan]
  cases s with
  | nil => simp [hc, isWord_of_isWordStart hc, scan]
  | cons d s =>
    have hne : d :: s ≠ [] := List.cons_ne_nil d s
    simp [hc, isWord_of_isWordStart hc, scan_true [c] hne]

/-- The loop finds the names of the grammar. -/
theorem finds_words : Finds fun s => {n | n ∈ words s} where
  skip c s hc := by simp only [words_skip hc, subset_rfl]
  word c s hc := by simp [words_word hc]
  rest c s hc := by
    intro n hn
    exact (words_word hc s).symm ▸ List.mem_cons_of_mem _ hn

theorem takeWhile_append_sep {f : Char → Bool} {c : Char} (hc : f c = false) (s t : Str) :
    (s ++ c :: t).takeWhile f = s.takeWhile f := by
  induction s with
  | nil => simp [hc]
  | cons d s ih => by_cases hd : f d = true <;> simp [hd, ih]

theorem dropWhile_append_sep {f : Char → Bool} {c : Char} (hc : f c = false) (s t : Str) :
    (s ++ c :: t).dropWhile f = s.dropWhile f ++ c :: t := by
  induction s with
  | nil => simp [hc]
  | cons d s ih => by_cases hd : f d = true <;> simp [hd, ih]

/-- No name reaches across a blank. -/
theorem words_append (s t : Str) : words (s ++ ' ' :: t) = words s ++ words t := by
  have hblank : isWordStart ' ' = false := by decide
  induction hn : s.length using Nat.strong_induction_on generalizing s with
  | _ n ih =>
    subst hn
    cases s with
    | nil => rw [List.nil_append, words_skip hblank, words_nil, List.nil_append]
    | cons c s =>
      rw [List.cons_append]
      cases hc : isWordStart c with
      | false => rw [words_skip hc, words_skip hc, ih s.length (by simp) s rfl]
      | true =>
        have hlt : (s.dropWhile isWord).length < (c :: s).length := by
          rw [List.length_cons]
          exact Nat.lt_succ_of_le (length_dropWhile_le isWord s)
        have hword : isWord ' ' = false := by decide
        rw [words_word hc, words_word hc, takeWhile_append_sep hword, dropWhile_append_sep hword,
          ih _ hlt _ rfl, List.cons_append]

/-- The colons of a ghost descriptor part names as the commas do. -/
theorem words_replaceColon (s : Str) : words (replaceColon s) = words s := by
  have hmap : ∀ (reading : Bool) (buffer s : Str),
      scan reading buffer (replaceColon s) = scan reading buffer s := by
    intro reading buffer s
    induction s generalizing reading buffer with
    | nil => rfl
    | cons c s ih =>
      have hempty : (replaceColon s).isEmpty = s.isEmpty := by cases s <;> rfl
      by_cases hc : c = ':'
      · subst hc
        have hcons : replaceColon (':' :: s) = ',' :: replaceColon s := rfl
        have hcolon : isWordStart ':' = false ∧ isWord ':' = false := by decide
        have hcomma : isWordStart ',' = false ∧ isWord ',' = false := by decide
        simp [hcons, scan, hcolon, hcomma, ih]
      · have hcons : replaceColon (c :: s) = c :: replaceColon s := by simp [replaceColon, hc]
        simp [hcons, scan, ih, hempty]
  exact hmap false [] s

theorem mem_dependentParameters {mdl : LayoutModel} {n : Str} :
    n ∈ dependentParameters mdl ↔
      n ∈ words mdl.dimensions ∨ n ∈ words mdl.global ∨ n ∈ words mdl.ghosts := by
  simp only [dependentParameters, words_append, List.mem_append]

/-! ### The names that the grammar evaluates -/

section Asked

variable {default : Language} {sym : Str → Option ℤ} {reversed : Bool} {str n : Str}
  {extents : List ℤ} {mdl : LayoutModel}

theorem asked_interpretExtents {complaint : Complaint}
    (hn : n ∈ (interpretExtents sym reversed complaint str).asked) : n ∈ words str := by
  rcases Traced.mem_asked_bind.mp hn with hn | ⟨r, -, hn⟩
  · exact finds_words.phraseParse sym str n hn
  · simp at hn

theorem asked_interpretGlobal (hn : n ∈ (interpretGlobal sym reversed str extents).asked) :
    n ∈ words str := by
  rw [interpretGlobal] at hn
  split_ifs at hn with hsharp
  · simp at hn
  · exact asked_interpretExtents hn

theorem asked_interpretGhosts (hn : n ∈ (interpretGhosts sym reversed str extents).asked) :
    n ∈ words str := by
  rw [interpretGhosts] at hn
  split_ifs at hn with hsharp
  · simp at hn
  · rcases Traced.mem_asked_bind.mp hn with hn | ⟨r, -, hn⟩
    · rw [← words_replaceColon]
      exact finds_words.phraseParse sym _ n hn
    · rcases Traced.mem_asked_bind.mp hn with hn | ⟨filled, -, hn⟩ <;> simp at hn

/-- Every name that `Calc` evaluates is one that the layout observes. -/
theorem asked_interpretDimensions (hn : n ∈ (interpretDimensions default sym mdl).asked) :
    n ∈ dependentParameters mdl := by
  rw [mem_dependentParameters]
  rcases Traced.mem_asked_bind.mp hn with hn | ⟨extents, -, hn⟩
  · exact .inl (asked_interpretExtents hn)
  rcases Traced.mem_asked_bind.mp hn with hn | ⟨globals, -, hn⟩
  · exact .inr (.inl (asked_interpretGlobal hn))
  rcases Traced.mem_asked_bind.mp hn with hn | ⟨ghosts, -, hn⟩
  · exact .inr (.inr (asked_interpretGhosts hn))
  · simp at hn

end Asked

section Local

variable (default : Language) (reversed : Bool) (str : Str) (extents : List ℤ) (mdl : LayoutModel)

theorem local_interpretExtents (complaint : Complaint) :
    Traced.Local fun sym => interpretExtents sym reversed complaint str :=
  (local_phraseParse str).bind fun _ => .const _

theorem local_interpretGlobal : Traced.Local fun sym => interpretGlobal sym reversed str extents := by
  unfold interpretGlobal
  split_ifs
  · exact .const _
  · exact local_interpretExtents reversed str .global

theorem local_interpretGhosts : Traced.Local fun sym => interpretGhosts sym reversed str extents := by
  unfold interpretGhosts
  split_ifs
  · exact .const _
  · exact (local_phraseParse _).bind fun _ => .const _

theorem local_interpretDimensions : Traced.Local fun sym => interpretDimensions default sym mdl :=
  (local_interpretExtents _ _ _).bind fun extents =>
    (local_interpretGlobal _ _ extents.1).bind fun _ =>
      (local_interpretGhosts _ _ extents.1).bind fun _ => .const _

/-- Parameters that a layout does not observe can take any value. -/
theorem interpretDimensions_congr {sym sym' : Str → Option ℤ}
    (h : ∀ n ∈ dependentParameters mdl, sym n = sym' n) :
    interpretDimensions default sym' mdl = interpretDimensions default sym mdl :=
  local_interpretDimensions default mdl sym sym' fun n hn => h n (asked_interpretDimensions hn)

end Local

end BoxLayout
end Damaris
