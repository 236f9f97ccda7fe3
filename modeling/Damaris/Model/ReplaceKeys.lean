import Damaris.Lib.Words

/-!
# Replacing keys in the configuration

`RepalceWithRegEx` makes one pass over the configuration for each key, in the order of the map. The
pattern of a key takes the rest of its run of non-space characters with it, and the pass goes on
behind that run.
-/
namespace Damaris.Model
open Words

/-- `\w`. -/
def isWord (c : Char) : Bool := c.isAlphanum || c == '_'

/-- A word that is not empty. -/
structure IsKey (key : List Char) : Prop where
  ne_nil : key ≠ []
  word : ∀ c ∈ key, isWord c

/-- The map of keys and values, in ascending order of the keys. -/
structure FindAndReplace where
  entries : List (List Char × List Char)
  sorted : entries.Pairwise (fun e e' => e.1 < e'.1)
  isKey : ∀ e ∈ entries, IsKey e.1
  no_dollar : ∀ e ∈ entries, '$' ∉ e.2
  no_key : ∀ e ∈ entries, ∀ e' ∈ entries, ¬ e.1 <:+: e'.2

/-- What a `char*` keeps of a string. -/
def cStr (s : List Char) : List Char := s.takeWhile (· ≠ '\x00')

/-- The format of a replacement, in which `$2` stands for the second group. -/
def format (group : List Char) : List Char → List Char
  | '$' :: '2' :: fmt => group ++ format group fmt
  | c :: fmt => c :: format group fmt
  | [] => []

/-- `regex_replace` with the pattern `\b(key)([^ ]*)`, from a character on; `prev` tells whether the
character before it is a word character. -/
def regexReplace (key fmt : List Char) (prev : Bool) : List Char → List Char
  | [] => []
  | c :: s =>
    if prev ≠ isWord c ∧ key <+: c :: s then
      let rest := s.drop (key.length - 1)
      let group := rest.takeWhile (· ≠ ' ')
      format group fmt ++
        regexReplace key fmt ((key ++ group).getLast?.any isWord) (rest.dropWhile (· ≠ ' '))
    else c :: regexReplace key fmt (isWord c) s
termination_by s => s.length
decreasing_by
  · have hdrop := (List.dropWhile_suffix (· ≠ ' ') (l := s.drop (key.length - 1))).length_le
    rw [List.length_drop] at hdrop
    rw [List.length_cons]
    exact Nat.lt_succ_of_le (hdrop.trans (Nat.sub_le _ _))
  · exact Nat.lt_succ_self _

/-- The replacement string of a value, as it is passed to `regex_replace`. -/
def replaceStr (v : List Char) : List Char := cStr (v ++ ['$', '2'])

/-- The pass of an entry. -/
def replaceEntry (config : List Char) (e : List Char × List Char) : List Char :=
  regexReplace e.1 (replaceStr e.2) false config

def repalceWithRegEx (map : FindAndReplace) (config : List Char) : List Char :=
  map.entries.foldl replaceEntry config

/-! ## The format -/

theorem format_append {v : List Char} (hv : '$' ∉ v) (group fmt : List Char) :
    format group (v ++ fmt) = v ++ format group fmt := by
  induction v with
  | nil => rfl
  | cons c v ih =>
    rw [List.mem_cons, not_or] at hv
    rw [List.cons_append, List.cons_append, ← ih hv.2, format]
    intro _ h _
    exact absurd h.symm hv.1

theorem format_replaceStr {v : List Char} (hv : '$' ∉ v) (hnull : '\x00' ∉ v)
    (group : List Char) : format group (replaceStr v) = v ++ group := by
  have hall : replaceStr v = v ++ ['$', '2'] := by
    rw [replaceStr, cStr, List.takeWhile_append_of_pos (forall_ne hnull)]
    rfl
  rw [hall, format_append hv, format, format, List.append_nil]

theorem cStr_append_null {p : List Char} (hp : '\x00' ∉ p) (q : List Char) :
    cStr (p ++ '\x00' :: q) = p := by
  rw [cStr, List.takeWhile_append_of_pos (forall_ne hp), List.takeWhile_cons_of_neg (by simp),
    List.append_nil]

/-- A value with a null character loses what comes after it, and the second group. -/
theorem format_replaceStr_of_null {v : List Char} (hv : '$' ∉ v) (hnull : '\x00' ∈ v)
    (group : List Char) : format group (replaceStr v) = cStr v := by
  have hcut : replaceStr v = cStr v := by
    obtain ⟨p, q, rfl, hp⟩ := List.eq_append_cons_of_mem hnull
    rw [replaceStr, List.append_assoc, List.cons_append, cStr_append_null hp, cStr_append_null hp]
  have hdollar : '$' ∉ cStr v := fun h => hv ((List.takeWhile_prefix _).subset h)
  rw [hcut, ← List.append_nil (cStr v), format_append hdollar, format]

/-! ## One pass -/

section Pass

variable {key fmt : List Char} {c : Char} {prev : Bool} {s r t w y : List Char}

theorem regexReplace_nil : regexReplace key fmt prev [] = [] := by
  rw [regexReplace]

theorem regexReplace_of_miss (h : ¬ key <+: c :: s) :
    regexReplace key fmt prev (c :: s) = c :: regexReplace key fmt (isWord c) s := by
  rw [regexReplace, if_neg (fun hmatch => h hmatch.2)]

/-- Inside a word nothing matches. -/
theorem regexReplace_inside (h : prev = isWord c) :
    regexReplace key fmt prev (c :: s) = c :: regexReplace key fmt (isWord c) s := by
  rw [regexReplace, if_neg (fun hmatch => hmatch.1 h)]

theorem regexReplace_word (hw : ∀ c ∈ w, isWord c) :
    regexReplace key fmt true (w ++ r) = w ++ regexReplace key fmt true r := by
  induction w with
  | nil => rfl
  | cons c w ih =>
    obtain ⟨hc, hw⟩ := List.forall_mem_cons.mp hw
    rw [List.cons_append, List.cons_append, regexReplace_inside hc.symm, hc, ih hw]

theorem IsKey.not_prefix_gap (hkey : IsKey key) (hc : ¬ isWord c) : ¬ key <+: c :: s := by
  obtain ⟨d, k, rfl⟩ := List.exists_cons_of_ne_nil hkey.ne_nil
  intro h
  rw [List.cons_prefix_cons] at h
  exact hc (h.1 ▸ hkey.word d List.mem_cons_self)

theorem regexReplace_gap (hkey : IsKey key) (hc : ¬ isWord c) :
    regexReplace key fmt prev (c :: s) = c :: regexReplace key fmt false s := by
  rw [regexReplace_of_miss (hkey.not_prefix_gap hc), Bool.eq_false_iff.mpr hc]

theorem regexReplace_break (hkey : IsKey key) (fmt : List Char) (hr : Break isWord r) (prev : Bool) :
    regexReplace key fmt prev r = regexReplace key fmt false r := by
  cases r with
  | nil => rw [regexReplace_nil, regexReplace_nil]
  | cons c r => rw [regexReplace_gap hkey (hr c rfl), regexReplace_gap hkey (hr c rfl)]

/-- A word that does not begin with the key stays. -/
theorem regexReplace_miss (hkey : IsKey key) (hw : ∀ c ∈ w, isWord c) (hr : Break isWord r)
    (h : ¬ key <+: w) : regexReplace key fmt false (w ++ r) = w ++ regexReplace key fmt false r := by
  cases w with
  | nil => rfl
  | cons c w =>
    have hmiss : ¬ key <+: c :: (w ++ r) := by
      rw [← List.cons_append, prefix_append_iff hkey.word hr]
      exact h
    obtain ⟨hc, hw⟩ := List.forall_mem_cons.mp hw
    rw [List.cons_append, List.cons_append, regexReplace_of_miss hmiss, hc,
      regexReplace_word hw, regexReplace_break hkey fmt hr]

/-- What comes before a word stays if the key is not in it. -/
theorem regexReplace_closed (hkey : IsKey key) (hy : Closed isWord y) (h : ¬ key <:+: y) :
    regexReplace key fmt false (y ++ s) = y ++ regexReplace key fmt false s := by
  suffices hprev : y ≠ [] → ∀ prev,
      regexReplace key fmt prev (y ++ s) = y ++ regexReplace key fmt false s by
    by_cases hnil : y = []
    · rw [hnil]
      rfl
    · exact hprev hnil false
  intro hnil
  induction y with
  | nil => exact absurd rfl hnil
  | cons c y ih =>
    intro prev
    have hmiss : ¬ key <+: c :: (y ++ s) := by
      intro hstart
      exact h (hy.prefix_append hnil hkey.word hstart).isInfix
    rw [List.cons_append, List.cons_append, regexReplace_of_miss hmiss]
    by_cases hyn : y = []
    · subst hyn
      rw [Bool.eq_false_iff.mpr hy.singleton]
      rfl
    · rw [ih (hy.suffix (List.suffix_cons c y)) (fun hinside => h (List.infix_cons hinside)) hyn]

theorem not_isWord_space : ¬ isWord ' ' := by decide

theorem break_dropWhile_space (s : List Char) : Break isWord (s.dropWhile (· ≠ ' ')) := by
  intro c hc
  have hspace := List.head?_dropWhile_not (· ≠ ' ') s
  rw [Option.mem_def.mp hc] at hspace
  obtain rfl : c = ' ' := by simpa using hspace
  exact not_isWord_space

/-- A match at the start of a word goes to the end of its run. -/
theorem regexReplace_match (hkey : IsKey key) (fmt s : List Char) :
    regexReplace key fmt false (key ++ s) =
      format (s.takeWhile (· ≠ ' ')) fmt ++ regexReplace key fmt false (s.dropWhile (· ≠ ' ')) := by
  have hbreak := regexReplace_break hkey fmt (break_dropWhile_space s)
  obtain ⟨c, k, rfl⟩ := List.exists_cons_of_ne_nil hkey.ne_nil
  have hc : isWord c = true := hkey.word c List.mem_cons_self
  have hmatch : false ≠ isWord c ∧ c :: k <+: c :: (k ++ s) :=
    ⟨by rw [hc]; decide, List.prefix_append (c :: k) s⟩
  rw [List.cons_append, regexReplace, if_pos hmatch]
  dsimp only
  rw [List.length_cons, Nat.add_sub_cancel, List.drop_left, hbreak]

/-! ## In a run -/

/-- A pass from the start of a word on, in a run in which the key was seen or not. -/
def resume (key fmt : List Char) (seen : Bool) (s : List Char) : List Char :=
  if seen then s.takeWhile (· ≠ ' ') ++ regexReplace key fmt false (s.dropWhile (· ≠ ' '))
  else regexReplace key fmt false s

variable {seen : Bool} {p : List Char}

/-- What was seen in the run before a part is seen after it, unless a space is in it. -/
def seenAfter (seen : Bool) (p : List Char) : Bool := seen && !p.contains ' '

theorem seenAfter_nil : seenAfter seen [] = seen :=
  Bool.and_true seen

theorem resume_true_append (hp : ' ' ∉ p) :
    resume key fmt true (p ++ s) = p ++ resume key fmt true s := by
  rw [resume, resume, if_pos rfl, if_pos rfl, List.takeWhile_append_of_pos (forall_ne hp),
    List.dropWhile_append_of_pos (forall_ne hp), List.append_assoc]

theorem resume_true_space (hkey : IsKey key) :
    resume key fmt true (' ' :: s) = ' ' :: regexReplace key fmt false s := by
  rw [resume, if_pos rfl, List.takeWhile_cons_of_neg (by simp), List.dropWhile_cons_of_neg (by simp),
    regexReplace_gap hkey not_isWord_space, List.nil_append]

theorem resume_closed (hkey : IsKey key) (hy : Closed isWord y) (h : ¬ key <:+: y) :
    resume key fmt seen (y ++ s) = y ++ resume key fmt (seenAfter seen y) s := by
  cases seen with
  | false => exact regexReplace_closed hkey hy h
  | true =>
    by_cases hspace : ' ' ∈ y
    · have hseen : seenAfter true y = false := by simp [seenAfter, hspace]
      rw [hseen]
      -- behind the space of `y` the pass goes on
      obtain ⟨p, q, rfl, hp⟩ := List.eq_append_cons_of_mem hspace
      have hq : q <:+ p ++ ' ' :: q := ⟨p ++ [' '], by simp⟩
      have hmiss : ¬ key <:+: q := fun hinside => h (hinside.trans hq.isInfix)
      rw [List.append_assoc, resume_true_append hp, List.cons_append, resume_true_space hkey,
        regexReplace_closed hkey (hy.suffix hq) hmiss, List.append_assoc, List.cons_append]
      rfl
    · have hseen : seenAfter true y = true := by simp [seenAfter, hspace]
      rw [hseen, resume_true_append hspace]

theorem resume_gap (hkey : IsKey key) (hc : ¬ isWord c) :
    resume key fmt seen (c :: s) = c :: resume key fmt (seenAfter seen [c]) s := by
  refine resume_closed hkey (y := [c]) ?_ ?_
  · intro d hd
    obtain rfl := Option.some.inj hd
    exact hc
  · intro h
    obtain ⟨d, k, rfl⟩ := List.exists_cons_of_ne_nil hkey.ne_nil
    have hd : d = c := List.mem_singleton.mp (h.subset List.mem_cons_self)
    exact hc (hd ▸ hkey.word d List.mem_cons_self)

theorem space_not_mem (hw : ∀ c ∈ w, isWord c) : ' ' ∉ w := by
  intro h
  exact not_isWord_space (hw ' ' h)

/-- A word stays if the key was seen in the run, or does not begin it. -/
theorem resume_word (hkey : IsKey key) (hw : ∀ c ∈ w, isWord c) (hr : Break isWord r)
    (h : seen = true ∨ ¬ key <+: w) :
    resume key fmt seen (w ++ r) = w ++ resume key fmt seen r := by
  cases seen with
  | false => exact regexReplace_miss hkey hw hr (h.resolve_left Bool.false_ne_true)
  | true => exact resume_true_append (space_not_mem hw)

theorem resume_nil (seen : Bool) : resume key fmt seen [] = [] := by
  rw [resume]
  split_ifs
  · rw [List.takeWhile_nil, List.dropWhile_nil, regexReplace_nil, List.append_nil]
  · exact regexReplace_nil

theorem break_resume (hkey : IsKey key) (hr : Break isWord r) :
    Break isWord (resume key fmt seen r) := by
  cases r with
  | nil =>
    rw [resume_nil]
    exact break_nil
  | cons c r =>
    rw [resume_gap hkey (hr c rfl)]
    exact break_cons (hr c rfl)

end Pass

/-! ## The entry of a key -/

section Entry

variable {key v r t : List Char}

/-- A word that begins with the key gets the value for it, and keeps its rest. -/
theorem resume_entry (hkey : IsKey key) (hv : '$' ∉ v) (hnull : '\x00' ∉ v)
    (ht : ∀ c ∈ t, isWord c) : resume key (replaceStr v) false (key ++ t ++ r) =
      v ++ t ++ resume key (replaceStr v) true r := by
  have hall := forall_ne (space_not_mem ht)
  rw [resume, if_neg Bool.false_ne_true, List.append_assoc, regexReplace_match hkey,
    format_replaceStr hv hnull, List.takeWhile_append_of_pos hall,
    List.dropWhile_append_of_pos hall, resume, if_pos rfl]
  simp only [List.append_assoc]

/-- With a null character in the value, the rest of the run is lost. -/
theorem resume_entry_of_null (hkey : IsKey key) (hv : '$' ∉ v) (hnull : '\x00' ∈ v)
    (ht : ∀ c ∈ t, isWord c) : resume key (replaceStr v) false (key ++ t ++ r) =
      cStr v ++ regexReplace key (replaceStr v) false (r.dropWhile (· ≠ ' ')) := by
  have hall := forall_ne (space_not_mem ht)
  rw [resume, if_neg Bool.false_ne_true, List.append_assoc, regexReplace_match hkey,
    format_replaceStr_of_null hv hnull, List.dropWhile_append_of_pos hall]

variable {x : List Char} {fmt : List Char} {seen : Bool}

/-- A pass over a part and the letters behind it: what comes before the last word of the part
stays. -/
theorem resume_append (hkey : IsKey key) (hx : ¬ key <:+: x) :
    resume key fmt seen (x ++ t ++ r) = x.rdropWhile isWord ++
      resume key fmt (seenAfter seen x) (x.rtakeWhile isWord ++ t ++ r) := by
  have hmiss : ¬ key <:+: x.rdropWhile isWord :=
    fun h => hx (h.trans (List.rdropWhile_prefix isWord x).isInfix)
  have hseen : seenAfter seen (x.rdropWhile isWord) = seenAfter seen x := by
    have hspace : ' ' ∈ x ↔ ' ' ∈ x.rdropWhile isWord := by
      have hlast : ' ' ∉ x.rtakeWhile isWord :=
        fun h => not_isWord_space (List.mem_rtakeWhile_imp h)
      nth_rewrite 1 [← List.rdropWhile_append_rtakeWhile (p := isWord) (l := x)]
      rw [List.mem_append]
      exact or_iff_left hlast
    rw [seenAfter, seenAfter, List.contains_eq_mem, List.contains_eq_mem,
      decide_eq_decide.mpr hspace]
  rw [← hseen, ← resume_closed hkey (closed_rdropWhile x) hmiss, ← List.append_assoc,
    ← List.append_assoc, List.rdropWhile_append_rtakeWhile]

theorem resume_keep (hkey : IsKey key) (hx : ¬ key <:+: x) (ht : ∀ c ∈ t, isWord c)
    (hr : Break isWord r) (h : seenAfter seen x = true ∨ ¬ key <+: x.rtakeWhile isWord ++ t) :
    resume key fmt seen (x ++ t ++ r) = x ++ t ++ resume key fmt (seenAfter seen x) r := by
  rw [resume_append hkey hx, resume_word hkey (rtakeWhile_append_letters ht) hr h,
    ← List.append_assoc, ← List.append_assoc, List.rdropWhile_append_rtakeWhile]

/-- Where the key begins the last word, a first part of the value comes before at most the letters
behind the key. -/
theorem resume_change (hkey : IsKey key) (hv : '$' ∉ v) (hx : ¬ key <:+: x)
    (ht : ∀ c ∈ t, isWord c) (hr : Break isWord r) (hseen : seenAfter seen x = false)
    {t' : List Char} (h : x.rtakeWhile isWord ++ t = key ++ t') :
    ∃ u t₁ r₁, resume key (replaceStr v) seen (x ++ t ++ r) = x.rdropWhile isWord ++ u ++ t₁ ++ r₁ ∧
      u <+: v ∧ (∀ c ∈ t₁, isWord c) ∧ t₁.length ≤ t'.length ∧ Break isWord r₁ := by
  have ht' := letters_of_rtakeWhile ht h
  rw [resume_append hkey hx, hseen, h]
  by_cases hnull : '\x00' ∈ v
  · rw [resume_entry_of_null hkey hv hnull ht']
    have hr₁ : Break isWord (resume key (replaceStr v) false (r.dropWhile (· ≠ ' '))) :=
      break_resume hkey (break_dropWhile_space r)
    refine ⟨cStr v, [], _, ?_, List.takeWhile_prefix _, fun _ h => (by cases h), Nat.zero_le _, hr₁⟩
    rw [List.append_nil, List.append_assoc]
    rfl
  · rw [resume_entry hkey hv hnull ht']
    have hr₁ : Break isWord (resume key (replaceStr v) true r) := break_resume hkey hr
    refine ⟨v, t', _, ?_, List.prefix_rfl, ht', le_rfl, hr₁⟩
    simp only [List.append_assoc]

end Entry

end Damaris.Model
