import Damaris.Model.KeyOccurrences

/-!
# When every key is replaced

In `Replaced` all keys that start a word get their values at once. The passes come to the same if no
word starts with two keys, no value that is used has a null character, and in every pass the
occurrences that come first in their runs are those of the configuration itself.
-/
namespace Damaris.Model
open Words

/-- Every key at the start of a word gets its value, and all other characters stay. The flag tells
whether the character before is a word character. -/
inductive Replaced (entries : Entries) : Bool → List Char → List Char → Prop
  | nil (prev : Bool) : Replaced entries prev [] []
  | key {e : List Char × List Char} {s out : List Char} (he : e ∈ entries)
      (only : ∀ e' ∈ entries, e'.1 <+: e.1 ++ s → e' = e) (h : Replaced entries true s out) :
      Replaced entries false (e.1 ++ s) (e.2 ++ out)
  | keep {prev : Bool} {c : Char} {s out : List Char}
      (hmiss : prev = true ∨ ∀ e ∈ entries, ¬ e.1 <+: c :: s)
      (h : Replaced entries (isWord c) s out) : Replaced entries prev (c :: s) (c :: out)

/-- The words fit, and every pass finds its key first in a run exactly where the configuration has
it. -/
structure Replaceable (map : FindAndReplace) (config : List Char) : Prop where
  fit : ∀ w ∈ (split isWord config).words, FitWord map.entries w
  clear : ∀ done e later, map.entries = done ++ e :: later →
    Clear done e.1 false (split isWord config).first (split isWord config).rest

/-! ## The replaced text -/

section Replaced

variable {entries : Entries} {c : Char} {w s r out : List Char}

theorem replaced_nil_iff {prev : Bool} (hkeys : ∀ e ∈ entries, IsKey e.1) :
    Replaced entries prev [] out ↔ out = [] := by
  constructor
  · generalize htext : ([] : List Char) = text
    intro h
    cases h with
    | nil => rfl
    | @key e s out he only h =>
      exact absurd (List.append_eq_nil_iff.mp htext.symm).1 (hkeys e he).ne_nil
    | keep => cases htext
  · rintro rfl
    exact .nil prev

/-- Inside a word, or where no key starts, the next character stays. -/
theorem replaced_cons_iff {prev : Bool} (hmiss : prev = true ∨ ∀ e ∈ entries, ¬ e.1 <+: c :: s) :
    Replaced entries prev (c :: s) out ↔ ∃ o, out = c :: o ∧ Replaced entries (isWord c) s o := by
  constructor
  · generalize htext : c :: s = text
    intro h
    cases h with
    | nil => cases htext
    | @key e s' out he only h =>
      obtain hprev | hnone := hmiss
      · cases hprev
      · exact absurd (htext ▸ List.prefix_append _ _) (hnone e he)
    | @keep prev c' s' out hmiss' h =>
      obtain ⟨rfl, rfl⟩ := List.cons_eq_cons.mp htext
      exact ⟨out, rfl, h⟩
  · rintro ⟨o, rfl, h⟩
    exact .keep hmiss h

/-- Two keys do not start where the text is replaced. -/
theorem Replaced.one (hkeys : ∀ e ∈ entries, IsKey e.1) (h : Replaced entries false s out) :
    ∀ e ∈ entries, ∀ e' ∈ entries, e.1 <+: s → e'.1 <+: s → e' = e := by
  intro e he e' he' hstart hstart'
  generalize hprev : false = prev at h
  cases h with
  | nil => exact absurd (List.prefix_nil.mp hstart) (hkeys e he).ne_nil
  | key he₀ only h => rw [only e he hstart, only e' he' hstart']
  | keep hmiss h =>
    obtain hprev' | hnone := hmiss
    · cases hprev.trans hprev'
    · exact absurd hstart (hnone e he)

theorem replaced_key_iff (hkeys : ∀ e ∈ entries, IsKey e.1) {e : List Char × List Char}
    (he : e ∈ entries) (only : ∀ e' ∈ entries, e'.1 <+: e.1 ++ s → e' = e) :
    Replaced entries false (e.1 ++ s) out ↔ ∃ o, out = e.2 ++ o ∧ Replaced entries true s o := by
  constructor
  · generalize htext : e.1 ++ s = text at only
    intro h
    cases h with
    | nil => exact absurd (List.append_eq_nil_iff.mp htext).1 (hkeys e he).ne_nil
    | @key e' s' out he' only' h =>
      obtain rfl := only e' he' (List.prefix_append _ _)
      obtain rfl := List.append_cancel_left htext
      exact ⟨out, rfl, h⟩
    | keep hmiss h =>
      obtain hprev | hnone := hmiss
      · cases hprev
      · exact absurd (htext ▸ List.prefix_append _ _) (hnone e he)
  · rintro ⟨o, rfl, h⟩
    exact .key he only h

theorem replaced_letters_iff (hw : ∀ c ∈ w, isWord c) :
    Replaced entries true (w ++ r) out ↔ ∃ o, out = w ++ o ∧ Replaced entries true r o := by
  induction w generalizing out with
  | nil =>
    constructor
    · exact fun h => ⟨out, rfl, h⟩
    · rintro ⟨o, rfl, h⟩
      exact h
  | cons c w ih =>
    obtain ⟨hc, hw⟩ := List.forall_mem_cons.mp hw
    rw [List.cons_append, replaced_cons_iff (.inl rfl), hc]
    constructor
    · rintro ⟨o, rfl, h⟩
      obtain ⟨o, rfl, hrest⟩ := (ih hw).mp h
      exact ⟨o, rfl, hrest⟩
    · rintro ⟨o, rfl, h⟩
      exact ⟨w ++ o, rfl, (ih hw).mpr ⟨o, rfl, h⟩⟩

theorem replaced_break_iff (hkeys : ∀ e ∈ entries, IsKey e.1) (hr : Break isWord r) :
    Replaced entries true r out ↔ Replaced entries false r out := by
  cases r with
  | nil => rw [replaced_nil_iff hkeys, replaced_nil_iff hkeys]
  | cons c r =>
    have hmiss : ∀ e ∈ entries, ¬ e.1 <+: c :: r :=
      fun e he => (hkeys e he).not_prefix_gap (hr c rfl)
    rw [replaced_cons_iff (.inr hmiss), replaced_cons_iff (.inr hmiss)]

theorem replaced_gap_iff (hkeys : ∀ e ∈ entries, IsKey e.1) (hc : ¬ isWord c) :
    Replaced entries false (c :: s) out ↔ ∃ o, out = c :: o ∧ Replaced entries false s o := by
  rw [replaced_cons_iff (.inr fun e he => (hkeys e he).not_prefix_gap hc),
    Bool.eq_false_iff.mpr hc]

/-- A word that no key starts stays. -/
theorem replaced_miss_iff (hkeys : ∀ e ∈ entries, IsKey e.1) (hw : ∀ c ∈ w, isWord c)
    (hr : Break isWord r) (hmiss : ∀ e ∈ entries, ¬ e.1 <+: w) :
    Replaced entries false (w ++ r) out ↔ ∃ o, out = w ++ o ∧ Replaced entries false r o := by
  cases w with
  | nil =>
    constructor
    · exact fun h => ⟨out, rfl, h⟩
    · rintro ⟨o, rfl, h⟩
      exact h
  | cons c w =>
    have hmiss' : ∀ e ∈ entries, ¬ e.1 <+: c :: (w ++ r) :=
      fun e he h => hmiss e he ((prefix_append_iff (hkeys e he).word hr).mp h)
    obtain ⟨hc, hw⟩ := List.forall_mem_cons.mp hw
    rw [List.cons_append, replaced_cons_iff (.inr hmiss'), hc]
    constructor
    · rintro ⟨o, rfl, h⟩
      obtain ⟨o, rfl, hrest⟩ := (replaced_letters_iff hw).mp h
      exact ⟨o, rfl, (replaced_break_iff hkeys hr).mp hrest⟩
    · rintro ⟨o, rfl, h⟩
      exact ⟨w ++ o, rfl, (replaced_letters_iff hw).mpr
        ⟨o, rfl, (replaced_break_iff hkeys hr).mpr h⟩⟩

/-- A word with one key gets its value, and keeps the letters behind the key. -/
theorem replaced_value_iff (hkeys : ∀ e ∈ entries, IsKey e.1) {e : List Char × List Char}
    (he : e ∈ entries) {t : List Char} (ht : ∀ c ∈ t, isWord c) (hr : Break isWord r)
    (only : ∀ e' ∈ entries, e'.1 <+: e.1 ++ t → e' = e) :
    Replaced entries false (e.1 ++ t ++ r) out ↔
      ∃ o, out = e.2 ++ t ++ o ∧ Replaced entries false r o := by
  have only' : ∀ e' ∈ entries, e'.1 <+: e.1 ++ (t ++ r) → e' = e := by
    intro e' he' h
    rw [← List.append_assoc] at h
    exact only e' he' ((prefix_append_iff (hkeys e' he').word hr).mp h)
  rw [List.append_assoc, replaced_key_iff hkeys he only']
  constructor
  · rintro ⟨o, rfl, h⟩
    obtain ⟨o, rfl, hrest⟩ := (replaced_letters_iff ht).mp h
    exact ⟨o, (List.append_assoc _ _ _).symm, (replaced_break_iff hkeys hr).mp hrest⟩
  · rintro ⟨o, rfl, h⟩
    exact ⟨t ++ o, List.append_assoc _ _ _, (replaced_letters_iff ht).mpr
      ⟨o, rfl, (replaced_break_iff hkeys hr).mpr h⟩⟩

/-- A word gets what the entries make of it, if at most one key starts it. -/
theorem replaced_word_iff (hkeys : ∀ e ∈ entries, IsKey e.1) (hw : ∀ c ∈ w, isWord c)
    (hr : Break isWord r) : Replaced entries false (w ++ r) out ↔
      (∀ e ∈ entries, ∀ e' ∈ entries, e.1 <+: w → e'.1 <+: w → e' = e) ∧
        ∃ o, out = replaceWord entries w ++ o ∧ Replaced entries false r o := by
  by_cases hkey : ∃ e ∈ entries, e.1 <+: w
  · obtain ⟨e, he, t, rfl, hexpand⟩ := exists_expand hkey
    have ht : ∀ c ∈ t, isWord c := fun c hc => hw c (List.mem_append_right _ hc)
    have hstart : ∀ e' ∈ entries, e'.1 <+: e.1 ++ t → e'.1 <+: e.1 ++ t ++ r :=
      fun _ _ h => h.trans (List.prefix_append _ _)
    rw [replaceWord, hexpand]
    constructor
    · intro h
      have hone := h.one hkeys
      have only : ∀ e' ∈ entries, e'.1 <+: e.1 ++ t → e' = e :=
        fun e' he' h' => hone e he e' he' (hstart e he (List.prefix_append _ _)) (hstart e' he' h')
      refine ⟨fun e₁ he₁ e₂ he₂ h₁ h₂ => ?_, (replaced_value_iff hkeys he ht hr only).mp h⟩
      rw [only e₁ he₁ h₁, only e₂ he₂ h₂]
    · rintro ⟨hone, h⟩
      have only : ∀ e' ∈ entries, e'.1 <+: e.1 ++ t → e' = e :=
        fun e' he' h' => hone e he e' he' (List.prefix_append _ _) h'
      exact (replaced_value_iff hkeys he ht hr only).mpr h
  · have hmiss : ∀ e ∈ entries, ¬ e.1 <+: w := fun e he h => hkey ⟨e, he, h⟩
    have hone : ∀ e ∈ entries, ∀ e' ∈ entries, e.1 <+: w → e'.1 <+: w → e' = e :=
      fun e he _ _ h => absurd h (hmiss e he)
    rw [and_iff_right hone, replaced_miss_iff hkeys hw hr hmiss, replaceWord, expand_of_miss hmiss]
    rfl

/-- A text gets what the entries make of its words, if at most one key starts each. -/
theorem replaced_replaceAll_iff {rest : List (Char × List Char)}
    (hkeys : ∀ e ∈ entries, IsKey e.1)
    (hword : ∀ w' ∈ w :: rest.map Prod.snd, ∀ c ∈ w', isWord c)
    (hgap : ∀ p ∈ rest, ¬ isWord p.1) (out : List Char) :
    Replaced entries false (w ++ tail id rest) out ↔ (∀ w' ∈ w :: rest.map Prod.snd,
      ∀ e ∈ entries, ∀ e' ∈ entries, e.1 <+: w' → e'.1 <+: w' → e' = e) ∧
        out = replaceAll entries w rest := by
  induction rest generalizing w out with
  | nil =>
    rw [replaced_word_iff hkeys (hword w List.mem_cons_self) (break_tail hgap), List.forall_mem_cons,
      and_assoc]
    refine and_congr_right fun _ => ?_
    constructor
    · rintro ⟨o, rfl, h⟩
      rw [(replaced_nil_iff hkeys).mp h]
      exact ⟨fun _ h => (by cases h), rfl⟩
    · rintro ⟨-, rfl⟩
      exact ⟨[], rfl, .nil false⟩
  | cons p rest ih =>
    obtain ⟨c, w'⟩ := p
    obtain ⟨hc, hgap'⟩ := List.forall_mem_cons.mp hgap
    have hrest : ∀ o, Replaced entries false (w' ++ tail id rest) o ↔ _ :=
      fun o => ih (fun v hv => hword v (List.mem_cons_of_mem w hv)) hgap' o
    rw [replaced_word_iff hkeys (hword w List.mem_cons_self) (break_tail hgap), List.forall_mem_cons,
      and_assoc]
    refine and_congr_right fun _ => ?_
    constructor
    · rintro ⟨o, rfl, h⟩
      obtain ⟨o, rfl, htail⟩ := (replaced_gap_iff hkeys hc).mp h
      obtain ⟨hone, rfl⟩ := (hrest o).mp htail
      exact ⟨hone, rfl⟩
    · rintro ⟨hone, rfl⟩
      exact ⟨_, rfl, (replaced_gap_iff hkeys hc).mpr ⟨_, rfl, (hrest _).mpr ⟨hone, rfl⟩⟩⟩

/-- A configuration gets what the entries make of its words, if at most one key starts each. -/
theorem replaced_iff (hkeys : ∀ e ∈ entries, IsKey e.1) (config out : List Char) :
    Replaced entries false config out ↔
      (∀ w ∈ (split isWord config).words, ∀ e ∈ entries, ∀ e' ∈ entries,
        e.1 <+: w → e'.1 <+: w → e' = e) ∧
      out = replaceAll entries (split isWord config).first (split isWord config).rest := by
  obtain ⟨hword, hgap⟩ := split_proper isWord config
  have hconfig : (split isWord config).first ++ tail id (split isWord config).rest = config :=
    render_split config
  have hiff := replaced_replaceAll_iff hkeys hword hgap out
  rw [hconfig] at hiff
  exact hiff

end Replaced

/-! ## Null characters -/

section Null

variable {v : List Char}

theorem count_format_le (hv : '$' ∉ v) (group : List Char) :
    (format group (replaceStr v)).count '\x00' ≤ group.count '\x00' := by
  by_cases hnull : '\x00' ∈ v
  · have hcut : '\x00' ∉ cStr v := by
      intro h
      have hne := List.mem_takeWhile_imp h
      simp at hne
    rw [format_replaceStr_of_null hv hnull, List.count_eq_zero_of_not_mem hcut]
    exact Nat.zero_le _
  · rw [format_replaceStr hv hnull, List.count_append, List.count_eq_zero_of_not_mem hnull,
      Nat.zero_add]

/-- A pass adds no null character. -/
theorem count_regexReplace_le (hv : '$' ∉ v) (key : List Char) (prev : Bool) (s : List Char) :
    (regexReplace key (replaceStr v) prev s).count '\x00' ≤ s.count '\x00' := by
  fun_induction regexReplace key (replaceStr v) prev s with
  | case1 => exact le_rfl
  | case2 prev c s hmatch rest group ih =>
    have hsub : rest.Sublist (c :: s) := (List.drop_sublist _ s).trans (List.sublist_cons_self c s)
    have hcount : group.count '\x00' + (rest.dropWhile (· ≠ ' ')).count '\x00' =
        rest.count '\x00' := by
      rw [← List.count_append, List.takeWhile_append_dropWhile]
    rw [List.count_append]
    have hformat := count_format_le hv group
    have hle := hsub.count_le '\x00'
    omega
  | case3 prev c s hmatch ih =>
    rw [List.count_cons, List.count_cons]
    exact Nat.add_le_add_right ih _

theorem count_foldl_le {map : FindAndReplace} {later : Entries} (hsub : later ⊆ map.entries)
    (config : List Char) :
    (later.foldl replaceEntry config).count '\x00' ≤ config.count '\x00' := by
  induction later generalizing config with
  | nil => exact le_rfl
  | cons e later ih =>
    obtain ⟨he, hsub⟩ := List.cons_subset.mp hsub
    exact (ih hsub _).trans (count_regexReplace_le (map.no_dollar e he) e.1 false config)

end Null

theorem replaceAll_nil (w : List Char) (rest : List (Char × List Char)) :
    replaceAll [] w rest = w ++ tail id rest := by
  have hid : replaceWord [] = id := by
    funext w
    rw [replaceWord, expand_of_miss (fun e he => by cases he)]
    rfl
  rw [replaceAll, hid]
  rfl

/-- The passes replace every key at the start of a word exactly if no word starts with two keys, no
value that is used has a null character, and in every pass the occurrences that come first in their
runs are those of the configuration itself. -/
theorem repalceWithRegEx_replaced_iff (map : FindAndReplace) (config : List Char) :
    Replaced map.entries false config (repalceWithRegEx map config) ↔ Replaceable map config := by
  obtain ⟨hword, hgap⟩ := split_proper isWord config
  have hconfig : (split isWord config).first ++ tail id (split isWord config).rest = config :=
    render_split config
  have hfold : ∀ hfits : Fits map (split isWord config).first (split isWord config).rest,
      repalceWithRegEx map config =
        replaceAll map.entries (split isWord config).first (split isWord config).rest ↔
      ∀ done e later, map.entries = done ++ e :: later →
        Clear done e.1 false (split isWord config).first (split isWord config).rest := by
    intro hfits
    have hall := foldl_replaceAll_iff hfits (List.nil_append map.entries).symm
    rw [replaceAll_nil, hconfig] at hall
    exact hall
  rw [replaced_iff map.isKey]
  constructor
  · rintro ⟨hone, hout⟩
    have hnull : ∀ w ∈ (split isWord config).words, '\x00' ∉ replaceWord map.entries w := by
      refine not_mem_of_count_le ?_ ?_
      · intro w hw hmem
        exact absurd (hword w hw _ hmem) (by decide)
      · have hle := count_foldl_le (List.Subset.refl map.entries) config
        rw [repalceWithRegEx] at hout
        rw [hout] at hle
        rw [hconfig]
        exact hle
    have hfits : Fits map (split isWord config).first (split isWord config).rest := by
      refine ⟨fun w hw => ⟨hone w hw, ?_⟩, hword, hgap⟩
      intro e he hstart hmem
      obtain ⟨e', he', t, hwt, hexpand⟩ := exists_expand ⟨e, he, hstart⟩
      obtain rfl := hone w hw e he e' he' hstart (hwt ▸ List.prefix_append _ _)
      refine hnull w hw ?_
      rw [replaceWord, hexpand]
      exact List.mem_append_left _ hmem
    exact ⟨hfits.fit, (hfold hfits).mp hout⟩
  · rintro ⟨hfit, hclear⟩
    exact ⟨fun w hw => (hfit w hw).one, (hfold ⟨hfit, hword, hgap⟩).mpr hclear⟩

/-- The key `K` with the value `1`. -/
def oneKey : FindAndReplace where
  entries := [(['K'], ['1'])]
  sorted := List.pairwise_singleton _ _
  isKey := by
    intro e he
    rw [List.mem_singleton.mp he]
    exact ⟨List.cons_ne_nil _ _, List.forall_mem_singleton.mpr (by decide)⟩
  no_dollar := List.forall_mem_singleton.mpr (by decide)
  no_key := List.forall_mem_singleton.mpr (List.forall_mem_singleton.mpr (by decide))

/-- In `K,K` the second key is in the run of the first, and stays. -/
theorem oneKey_not_replaced : ¬ Replaced oneKey.entries false ['K', ',', 'K']
    (repalceWithRegEx oneKey ['K', ',', 'K']) := by
  have hpass : repalceWithRegEx oneKey ['K', ',', 'K'] = ['1', ',', 'K'] := by
    have hkey := oneKey.isKey _ List.mem_cons_self
    refine (regexReplace_match hkey (replaceStr ['1']) [',', 'K']).trans ?_
    have hend : [',', 'K'].dropWhile (· ≠ ' ') = [] := by decide
    rw [hend, regexReplace_nil]
    decide
  rw [replaced_iff oneKey.isKey, hpass]
  rintro ⟨-, hout⟩
  exact absurd hout (by decide)

end Damaris.Model
