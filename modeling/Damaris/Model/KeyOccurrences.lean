import Damaris.Model.ReplaceKeys

/-!
# The occurrences of the keys

What the passes should make of a text is known word by word: a word with a key has the key's value
and the rest of its letters (`expand`). A pass goes wrong where its key does not occur first in its
run, or occurs in what an earlier pass made of a word. What went wrong is never made good.
-/
namespace Damaris.Model
open Words

abbrev Entries := List (List Char × List Char)

/-- What the entries make of a word: the value of its key, or nothing, and the letters that stay. -/
def expand (entries : Entries) (w : List Char) : List Char × List Char :=
  match entries.find? (fun e => e.1.isPrefixOf w) with
  | some e => (e.2, w.drop e.1.length)
  | none => ([], w)

def replaceWord (entries : Entries) (w : List Char) : List Char :=
  (expand entries w).1 ++ (expand entries w).2

/-! ## The condition -/

/-- The key starts a word in what the entries make of this one. -/
def Occurs (entries : Entries) (key w : List Char) : Prop :=
  key <+: (expand entries w).1.rtakeWhile isWord ++ (expand entries w).2

instance (entries : Entries) (key w : List Char) : Decidable (Occurs entries key w) :=
  inferInstanceAs (Decidable (key <+: _))

/-- The key occurs behind another occurrence in its run exactly if an entry was replaced here. -/
def WordClear (entries : Entries) (key : List Char) (seen : Bool) (w : List Char) : Prop :=
  Occurs entries key w →
    (seenAfter seen (expand entries w).1 = true ↔ ∃ e ∈ entries, e.1 <+: w)

/-- Whether the key has occurred in the run at the end of a word. -/
def seenWord (entries : Entries) (key : List Char) (seen : Bool) (w : List Char) : Bool :=
  seenAfter seen (expand entries w).1 || decide (Occurs entries key w)

/-- Where these entries are replaced, the occurrences of the key that come first in their runs are
those of the text itself. -/
def Clear (entries : Entries) (key : List Char) (seen : Bool) (w : List Char) :
    List (Char × List Char) → Prop
  | [] => WordClear entries key seen w
  | (c, w') :: rest => WordClear entries key seen w ∧
      Clear entries key (seenAfter (seenWord entries key seen w) [c]) w' rest

/-- At most one key starts the word, and its value has no null character. -/
structure FitWord (entries : Entries) (w : List Char) : Prop where
  one : ∀ e ∈ entries, ∀ e' ∈ entries, e.1 <+: w → e'.1 <+: w → e' = e
  no_null : ∀ e ∈ entries, e.1 <+: w → '\x00' ∉ e.2

/-! ## What the entries make of a word -/

section Word

variable {entries : Entries} {e : List Char × List Char} {w t : List Char}

theorem find_of_miss (h : ∀ e ∈ entries, ¬ e.1 <+: w) :
    entries.find? (fun e => e.1.isPrefixOf w) = none := by
  rw [List.find?_eq_none]
  intro e he hstart
  exact h e he (List.isPrefixOf_iff_prefix.mp hstart)

theorem expand_of_miss (h : ∀ e ∈ entries, ¬ e.1 <+: w) : expand entries w = ([], w) := by
  rw [expand, find_of_miss h]

/-- A word with a key has its value and what follows the key. -/
theorem exists_expand (h : ∃ e ∈ entries, e.1 <+: w) :
    ∃ e ∈ entries, ∃ t, w = e.1 ++ t ∧ expand entries w = (e.2, t) := by
  rw [expand]
  cases hfind : entries.find? (fun e => e.1.isPrefixOf w) with
  | none =>
    obtain ⟨e, he, hstart⟩ := h
    exact absurd (List.isPrefixOf_iff_prefix.mpr hstart) (List.find?_eq_none.mp hfind e he)
  | some e =>
    have hstart := List.find?_some hfind
    obtain ⟨t, rfl⟩ := List.isPrefixOf_iff_prefix.mp hstart
    refine ⟨e, List.mem_of_find?_eq_some hfind, t, rfl, ?_⟩
    dsimp only
    rw [List.drop_left]

theorem exists_append (h : ∃ e ∈ entries, e.1 <+: w) (later : Entries) :
    ∃ e ∈ entries ++ later, e.1 <+: w := by
  obtain ⟨e, he, hstart⟩ := h
  exact ⟨e, List.mem_append_left later he, hstart⟩

theorem expand_append_of_mem (h : ∃ e ∈ entries, e.1 <+: w) (later : Entries) :
    expand (entries ++ later) w = expand entries w := by
  obtain ⟨e, he, hstart⟩ := h
  have hsome : (entries.find? (fun e => e.1.isPrefixOf w)).isSome :=
    List.find?_isSome.mpr ⟨e, he, List.isPrefixOf_iff_prefix.mpr hstart⟩
  rw [expand, expand, List.find?_append, Option.or_of_isSome hsome]

theorem expand_append_of_miss (h : ∀ e ∈ entries, ¬ e.1 <+: w) (later : Entries) :
    expand (entries ++ later) w = expand later w := by
  rw [expand, expand, List.find?_append, find_of_miss h, Option.none_or]

theorem occurs_of_miss (h : ∀ e ∈ entries, ¬ e.1 <+: w) (key : List Char) :
    Occurs entries key w ↔ key <+: w := by
  rw [Occurs, expand_of_miss h, List.rtakeWhile_nil, List.nil_append]

/-- The condition on a word that has kept its text: its key is the first in the run. -/
theorem wordClear_of_miss (h : ∀ e ∈ entries, ¬ e.1 <+: w) (key : List Char) (seen : Bool) :
    WordClear entries key seen w ↔ (key <+: w → seen = false) := by
  have hnone : ¬ ∃ e ∈ entries, e.1 <+: w := by
    rintro ⟨e, he, hstart⟩
    exact h e he hstart
  rw [WordClear, occurs_of_miss h, expand_of_miss h, seenAfter_nil, iff_false_intro hnone, iff_false,
    Bool.not_eq_true]

theorem expand_singleton : expand [e] (e.1 ++ t) = (e.2, t) := by
  obtain ⟨e', he, t', heq, hexpand⟩ : ∃ e' ∈ [e], ∃ t', e.1 ++ t = e'.1 ++ t' ∧
      expand [e] (e.1 ++ t) = (e'.2, t') :=
    exists_expand ⟨e, List.mem_singleton_self e, List.prefix_append _ _⟩
  obtain rfl := List.mem_singleton.mp he
  rw [hexpand, List.append_cancel_left heq]

/-- The value that a word gets has no key in it, and the rest is of letters. -/
theorem expand_clean (map : FindAndReplace) (hsub : entries ⊆ map.entries)
    (hw : ∀ c ∈ w, isWord c) : (∀ e ∈ map.entries, ¬ e.1 <:+: (expand entries w).1) ∧
      ∀ c ∈ (expand entries w).2, isWord c := by
  by_cases h : ∃ e ∈ entries, e.1 <+: w
  · obtain ⟨e, he, t, rfl, hexpand⟩ := exists_expand h
    rw [hexpand]
    exact ⟨fun e' he' => map.no_key e' he' e (hsub he),
      fun c hc => hw c (List.mem_append_right _ hc)⟩
  · rw [not_exists] at h
    rw [expand_of_miss (fun e he hstart => h e ⟨he, hstart⟩)]
    refine ⟨fun e he hinside => ?_, hw⟩
    exact (map.isKey e he).ne_nil (List.infix_nil.mp hinside)

end Word

/-! ## Words that went wrong -/

/-- What a word is after a pass that missed its key, or took a later key in what was made of it. It
stays apart from what the entries make of the word. -/
inductive Wrong (map : FindAndReplace) (entries : Entries) (w : List Char) : List Char → Prop
  | missed (h : ∃ e ∈ entries, e.1 <+: w) : Wrong map entries w w
  | changed {a k t u t₁ : List Char} (hmem : ∃ e ∈ entries, e.1 <+: w)
      (heq : replaceWord entries w = a ++ k ++ t) (ha : Closed isWord a)
      (hk : ∃ e ∈ map.entries, e.1 = k) (ht : ∀ c ∈ t, isWord c) (ht₁ : ∀ c ∈ t₁, isWord c)
      (hle : t₁.length ≤ t.length) (hclean : ∀ e ∈ map.entries, ¬ e.1 <:+: a ++ u) :
      Wrong map entries w (a ++ u ++ t₁)

section Pass

variable {map : FindAndReplace} {done later : Entries} {e : List Char × List Char}
  {w x r r' : List Char} {seen : Bool}

theorem Wrong.append_ne (h : Wrong map done w x) (hsub : done ⊆ map.entries)
    (hw : ∀ c ∈ w, isWord c) (hr : Break isWord r) (hr' : Break isWord r') :
    x ++ r ≠ replaceWord done w ++ r' := by
  cases h with
  | missed h =>
    obtain ⟨e, he, t, rfl, hexpand⟩ := exists_expand h
    have ht : ∀ c ∈ t, isWord c := fun c hc => hw c (List.mem_append_right _ hc)
    rw [replaceWord, hexpand]
    exact (Words.append_ne (map.isKey e (hsub he)).word
      (fun hstart => map.no_key e (hsub he) e (hsub he) hstart.isInfix) ht ht le_rfl hr' hr).symm
  | @changed a k t u t₁ hmem heq ha hk ht ht₁ hle hclean =>
    obtain ⟨e, he, rfl⟩ := hk
    rw [heq]
    intro h
    simp only [List.append_assoc] at h
    have hne := Words.append_ne (u := u) (map.isKey e he).word
      (fun hstart => hclean e he (hstart.isInfix.trans (List.suffix_append a u).isInfix))
      ht₁ ht hle hr hr'
    refine hne ?_
    simp only [List.append_assoc]
    exact List.append_cancel_left h

variable (hsplit : map.entries = done ++ e :: later)

include hsplit

theorem mem_entries : e ∈ map.entries := by
  rw [hsplit]
  exact List.mem_append_right _ List.mem_cons_self

theorem done_subset : done ⊆ map.entries := by
  rw [hsplit]
  exact List.subset_append_left _ _

/-- A word with the key of an earlier entry does not begin with the key of this one. -/
theorem not_prefix_of_done (hfit : FitWord map.entries w) (h : ∃ e ∈ done, e.1 <+: w) :
    ¬ e.1 <+: w := by
  intro hstart
  obtain ⟨e₀, he₀, hstart₀⟩ := h
  have heq := hfit.one e (mem_entries hsplit) e₀ (done_subset hsplit he₀) hstart hstart₀
  have hsorted := map.sorted
  rw [hsplit, List.pairwise_append] at hsorted
  have hlt := hsorted.2.2 e₀ he₀ e List.mem_cons_self
  rw [heq] at hlt
  exact List.lt_irrefl _ hlt

/-- A word that went wrong stays so in the pass of a later key. -/
theorem Wrong.resume (h : Wrong map done w x) (hfit : FitWord map.entries w)
    (hw : ∀ c ∈ w, isWord c) (hr : Break isWord r) (seen : Bool) :
    ∃ x' r', Model.resume e.1 (replaceStr e.2) seen (x ++ r) = x' ++ r' ∧
      Wrong map (done ++ [e]) w x' ∧ Break isWord r' := by
  have hmem := mem_entries hsplit
  have hkey := map.isKey e hmem
  cases h with
  | missed h =>
    have hmiss := not_prefix_of_done hsplit hfit h
    exact ⟨w, _, resume_word hkey hw hr (.inr hmiss), .missed (exists_append h [e]),
      break_resume hkey hr⟩
  | @changed a k t u t₁ hdone heq ha hk ht ht₁ hle hclean =>
    have heq' : replaceWord (done ++ [e]) w = a ++ k ++ t := by
      rw [replaceWord, expand_append_of_mem hdone]
      exact heq
    have hdone' := exists_append hdone [e]
    by_cases hstay : seenAfter seen (a ++ u) = true ∨
        ¬ e.1 <+: (a ++ u).rtakeWhile isWord ++ t₁
    · exact ⟨a ++ u ++ t₁, _, resume_keep hkey (hclean e hmem) ht₁ hr hstay,
        .changed hdone' heq' ha hk ht ht₁ hle hclean, break_resume hkey hr⟩
    · rw [not_or, not_not, Bool.not_eq_true] at hstay
      obtain ⟨hseen, t', ht'⟩ := hstay
      obtain ⟨u₁, t₂, r₁, hresume, hu₁, ht₂, hle₂, hr₁⟩ :=
        resume_change hkey (map.no_dollar e hmem) (hclean e hmem) ht₁ hr hseen ht'.symm
      rw [ha.rdropWhile_append] at hresume
      refine ⟨a ++ (u.rdropWhile isWord ++ u₁) ++ t₂, r₁, ?_, ?_, hr₁⟩
      · rw [hresume, ← List.append_assoc a]
      · have hlong := length_le_of_rtakeWhile (hclean e hmem) ht'.symm
        refine .changed hdone' heq' ha hk ht ht₂ (hle₂.trans (hlong.trans hle)) ?_
        intro e' he'
        rw [← List.append_assoc, ← ha.rdropWhile_append]
        exact not_infix_rdropWhile_append (map.isKey e' he').word (hclean e' he')
          (fun h => map.no_key e' he' e hmem (h.trans hu₁.isInfix))

/-- A word on which the condition holds gets what the entries up to this one make of it. -/
theorem resume_replaceWord (hfit : FitWord map.entries w) (hw : ∀ c ∈ w, isWord c)
    (hr : Break isWord r) (hclear : WordClear done e.1 seen w) :
    resume e.1 (replaceStr e.2) seen (replaceWord done w ++ r) =
      replaceWord (done ++ [e]) w ++
        resume e.1 (replaceStr e.2) (seenWord done e.1 seen w) r := by
  have hmem := mem_entries hsplit
  have hkey := map.isKey e hmem
  obtain ⟨hclean, hletters⟩ := expand_clean map (done_subset hsplit) hw
  rw [seenWord]
  by_cases hdone : ∃ e ∈ done, e.1 <+: w
  · have hkeep : seenAfter seen (expand done w).1 = true ∨ ¬ Occurs done e.1 w :=
      or_iff_not_imp_right.mpr fun h => (hclear (not_not.mp h)).mpr hdone
    have hseen : (seenAfter seen (expand done w).1 || decide (Occurs done e.1 w)) =
        seenAfter seen (expand done w).1 := by
      obtain h | h := hkeep
      · rw [h, Bool.true_or]
      · rw [decide_eq_false h, Bool.or_false]
    rw [hseen, replaceWord, replaceWord, expand_append_of_mem hdone]
    exact resume_keep hkey (hclean e hmem) hletters hr hkeep
  · have hmiss : ∀ e ∈ done, ¬ e.1 <+: w := fun e he hstart => hdone ⟨e, he, hstart⟩
    rw [wordClear_of_miss hmiss] at hclear
    rw [replaceWord, replaceWord, expand_of_miss hmiss, expand_append_of_miss hmiss, seenAfter_nil,
      List.nil_append, decide_eq_decide.mpr (occurs_of_miss hmiss e.1)]
    by_cases hstart : e.1 <+: w
    · have hseen := hclear hstart
      have hnull := hfit.no_null e hmem hstart
      rw [decide_eq_true hstart, Bool.or_true, hseen]
      obtain ⟨t, hkt⟩ := hstart
      have ht : ∀ c ∈ t, isWord c := fun c hc => hw c (hkt ▸ List.mem_append_right _ hc)
      rw [← hkt, expand_singleton, resume_entry hkey (map.no_dollar e hmem) hnull ht]
    · have hnone : ∀ e' ∈ [e], ¬ e'.1 <+: w := by
        intro e' he'
        rw [List.mem_singleton.mp he']
        exact hstart
      rw [expand_of_miss hnone, List.nil_append, decide_eq_false hstart, Bool.or_false,
        resume_word hkey hw hr (.inr hstart)]

/-- A word on which the condition fails goes wrong. -/
theorem exists_wrong (hw : ∀ c ∈ w, isWord c) (hr : Break isWord r)
    (h : ¬ WordClear done e.1 seen w) :
    ∃ x r', resume e.1 (replaceStr e.2) seen (replaceWord done w ++ r) = x ++ r' ∧
      Wrong map (done ++ [e]) w x ∧ Break isWord r' := by
  have hmem := mem_entries hsplit
  have hkey := map.isKey e hmem
  obtain ⟨hclean, hletters⟩ := expand_clean map (done_subset hsplit) hw
  by_cases hdone : ∃ e ∈ done, e.1 <+: w
  · have hdone' : ∃ e' ∈ done ++ [e], e'.1 <+: w := by
      obtain ⟨e₀, he₀, hstart⟩ := hdone
      exact ⟨e₀, List.mem_append_left _ he₀, hstart⟩
    obtain ⟨hoccurs, hiff⟩ := Classical.not_imp.mp h
    obtain ⟨t', ht'⟩ := hoccurs
    have hseen : seenAfter seen (expand done w).1 = false :=
      Bool.eq_false_iff.mpr fun hseen => hiff (iff_of_true hseen hdone)
    have hletters' := letters_of_rtakeWhile hletters ht'.symm
    obtain ⟨u, t₁, r₁, hresume, hu, ht₁, hle, hr₁⟩ :=
      resume_change hkey (map.no_dollar e hmem) (hclean e hmem) hletters hr hseen ht'.symm
    refine ⟨_, r₁, hresume, ?_, hr₁⟩
    refine .changed (k := e.1) hdone' ?_ (closed_rdropWhile _) ⟨e, hmem, rfl⟩ hletters' ht₁ hle ?_
    · rw [replaceWord, expand_append_of_mem hdone, List.append_assoc, ht', ← List.append_assoc,
        List.rdropWhile_append_rtakeWhile]
    · intro e' he'
      exact not_infix_rdropWhile_append (map.isKey e' he').word (hclean e' he')
        (fun hinside => map.no_key e' he' e hmem (hinside.trans hu.isInfix))
  · have hmiss : ∀ e ∈ done, ¬ e.1 <+: w := fun e he hstart => hdone ⟨e, he, hstart⟩
    rw [wordClear_of_miss hmiss, Classical.not_imp, Bool.not_eq_false] at h
    obtain ⟨hstart, hseen⟩ := h
    rw [replaceWord, expand_of_miss hmiss, List.nil_append]
    exact ⟨w, _, resume_word hkey hw hr (.inl hseen),
      .missed ⟨e, List.mem_append_right _ (List.mem_singleton_self e), hstart⟩,
      break_resume hkey hr⟩

end Pass

/-! ## Passes over a text -/

section Texts

variable {map : FindAndReplace} {done later : Entries} {e : List Char × List Char}
  {w s : List Char} {rest : List (Char × List Char)} {seen : Bool}

/-- A word and what follows it are of words that fit, separated by other characters. -/
structure Fits (map : FindAndReplace) (w : List Char) (rest : List (Char × List Char)) : Prop where
  fit : ∀ w' ∈ w :: rest.map Prod.snd, FitWord map.entries w'
  word : ∀ w' ∈ w :: rest.map Prod.snd, ∀ c ∈ w', isWord c
  gap : ∀ p ∈ rest, ¬ isWord p.1

theorem Fits.tail {c : Char} {w' : List Char} (h : Fits map w ((c, w') :: rest)) :
    Fits map w' rest where
  fit := fun v hv => h.fit v (List.mem_cons_of_mem w hv)
  word := fun v hv => h.word v (List.mem_cons_of_mem w hv)
  gap := fun p hp => h.gap p (List.mem_cons_of_mem _ hp)

/-- What the entries make of a word and what follows it. -/
def replaceAll (entries : Entries) (w : List Char) (rest : List (Char × List Char)) : List Char :=
  replaceWord entries w ++ tail (replaceWord entries) rest

/-- A text in which a word went wrong, and all before it are right. -/
inductive Off (map : FindAndReplace) (done : Entries) :
    List Char → List (Char × List Char) → List Char → Prop
  | here {w x r : List Char} {rest : List (Char × List Char)} (h : Wrong map done w x)
      (hr : Break isWord r) : Off map done w rest (x ++ r)
  | later {w w' s : List Char} {c : Char} {rest : List (Char × List Char)}
      (h : Off map done w' rest s) : Off map done w ((c, w') :: rest) (replaceWord done w ++ c :: s)

theorem Off.ne (h : Off map done w rest s) (hsub : done ⊆ map.entries) (hfits : Fits map w rest) :
    s ≠ replaceAll done w rest := by
  induction h with
  | here h hr =>
    exact h.append_ne hsub (hfits.word _ List.mem_cons_self) hr (break_tail hfits.gap)
  | later h ih =>
    intro heq
    have htail := List.append_cancel_left heq
    exact ih hfits.tail (List.cons_eq_cons.mp htail).2

section Step

variable (hsplit : map.entries = done ++ e :: later)

include hsplit

/-- A pass in which the condition holds on every word replaces its key. -/
theorem resume_replaceAll (hfits : Fits map w rest) (hclear : Clear done e.1 seen w rest) :
    resume e.1 (replaceStr e.2) seen (replaceAll done w rest) = replaceAll (done ++ [e]) w rest := by
  have hkey := map.isKey e (mem_entries hsplit)
  induction rest generalizing w seen with
  | nil =>
    rw [replaceAll, Words.tail, resume_replaceWord hsplit (hfits.fit w List.mem_cons_self)
      (hfits.word w List.mem_cons_self) break_nil hclear, resume_nil]
    rfl
  | cons p rest ih =>
    obtain ⟨c, w'⟩ := p
    obtain ⟨hword, hrest⟩ := hclear
    have hc : ¬ isWord c := hfits.gap (c, w') List.mem_cons_self
    rw [replaceAll, Words.tail, resume_replaceWord hsplit (hfits.fit w List.mem_cons_self)
      (hfits.word w List.mem_cons_self) (break_cons hc) hword, resume_gap hkey hc]
    exact congrArg (fun s => replaceWord (done ++ [e]) w ++ c :: s) (ih hfits.tail hrest)

/-- The first word on which the condition fails goes wrong. -/
theorem resume_off (hfits : Fits map w rest) (h : ¬ Clear done e.1 seen w rest) :
    Off map (done ++ [e]) w rest (resume e.1 (replaceStr e.2) seen (replaceAll done w rest)) := by
  have hkey := map.isKey e (mem_entries hsplit)
  have hletters := hfits.word w List.mem_cons_self
  induction rest generalizing w seen with
  | nil =>
    obtain ⟨x, r, hresume, hwrong, hr⟩ := exists_wrong hsplit hletters break_nil h
    rw [replaceAll, Words.tail, hresume]
    exact .here hwrong hr
  | cons p rest ih =>
    obtain ⟨c, w'⟩ := p
    have hc : ¬ isWord c := hfits.gap (c, w') List.mem_cons_self
    rw [replaceAll, Words.tail]
    by_cases hword : WordClear done e.1 seen w
    · rw [resume_replaceWord hsplit (hfits.fit w List.mem_cons_self) hletters (break_cons hc) hword,
        resume_gap hkey hc]
      exact .later (ih hfits.tail (fun hrest => h ⟨hword, hrest⟩)
        (hfits.tail.word w' List.mem_cons_self))
    · obtain ⟨x, r, hresume, hwrong, hr⟩ := exists_wrong hsplit hletters (break_cons hc) hword
      rw [hresume]
      exact .here hwrong hr

/-- A text that went wrong stays so. -/
theorem Off.resume (h : Off map done w rest s) (hfits : Fits map w rest) (seen : Bool) :
    Off map (done ++ [e]) w rest (Model.resume e.1 (replaceStr e.2) seen s) := by
  have hkey := map.isKey e (mem_entries hsplit)
  induction h generalizing seen with
  | here h hr =>
    obtain ⟨x, r, hresume, hwrong, hr'⟩ := h.resume hsplit
      (hfits.fit _ List.mem_cons_self) (hfits.word _ List.mem_cons_self) hr seen
    rw [hresume]
    exact .here hwrong hr'
  | @later w w' s c rest h ih =>
    have hc : ¬ isWord c := hfits.gap (c, w') List.mem_cons_self
    have hletters := hfits.word w List.mem_cons_self
    by_cases hword : WordClear done e.1 seen w
    · rw [resume_replaceWord hsplit (hfits.fit w List.mem_cons_self) hletters (break_cons hc) hword,
        resume_gap hkey hc]
      exact .later (ih hfits.tail _)
    · obtain ⟨x, r, hresume, hwrong, hr⟩ := exists_wrong hsplit hletters (break_cons hc) hword
      rw [hresume]
      exact .here hwrong hr

end Step

theorem Off.foldl (h : Off map done w rest s) (hfits : Fits map w rest)
    (hsplit : map.entries = done ++ later) :
    Off map map.entries w rest (later.foldl replaceEntry s) := by
  induction later generalizing done s with
  | nil =>
    rw [List.append_nil] at hsplit
    rw [hsplit]
    exact h
  | cons e later ih =>
    refine ih (h.resume hsplit hfits false) ?_
    rw [List.append_assoc]
    exact hsplit

/-- The remaining passes replace the remaining keys exactly if the condition holds in each. -/
theorem foldl_replaceAll_iff (hfits : Fits map w rest) (hsplit : map.entries = done ++ later) :
    later.foldl replaceEntry (replaceAll done w rest) = replaceAll map.entries w rest ↔
      ∀ d e l, later = d ++ e :: l → Clear (done ++ d) e.1 false w rest := by
  induction later generalizing done with
  | nil =>
    rw [List.append_nil] at hsplit
    rw [hsplit]
    exact iff_of_true rfl (fun d e l h => absurd h (by simp))
  | cons e later ih =>
    have hsplit' : map.entries = done ++ [e] ++ later := by
      rw [List.append_assoc]
      exact hsplit
    by_cases hclear : Clear done e.1 false w rest
    · have hpass : replaceEntry (replaceAll done w rest) e = replaceAll (done ++ [e]) w rest :=
        resume_replaceAll hsplit hfits hclear
      rw [List.foldl_cons, hpass, ih hsplit']
      constructor
      · intro h d e' l heq
        cases d with
        | nil =>
          obtain ⟨rfl, rfl⟩ := List.cons_eq_cons.mp heq
          rw [List.append_nil]
          exact hclear
        | cons e₀ d =>
          obtain ⟨rfl, hlater⟩ := List.cons_eq_cons.mp heq
          have hd := h d e' l hlater
          rw [List.append_assoc] at hd
          exact hd
      · intro h d e' l heq
        rw [List.append_assoc]
        exact h (e :: d) e' l (congrArg (e :: ·) heq)
    · have hoff : Off map (done ++ [e]) w rest (replaceEntry (replaceAll done w rest) e) :=
        resume_off hsplit hfits hclear
      refine iff_of_false ?_ (fun h => ?_)
      · exact (hoff.foldl hfits hsplit').ne (List.Subset.refl _) hfits
      · have hfirst := h [] e later rfl
        rw [List.append_nil] at hfirst
        exact hclear hfirst

end Texts

end Damaris.Model
