import Mathlib.Data.List.DropRight
import Mathlib.Data.List.TakeWhile
import Mathlib.Tactic

/-!
# The words of a text

Some characters are letters. A text is its first word and then the characters that are no letters,
each with the word after it; the words may be empty. What comes after a word begins with no letter
(`Break`), what comes before one ends with none (`Closed`).
-/
namespace Words

variable {α : Type*} {letter : α → Bool}

structure Text (α : Type*) where
  first : List α
  rest : List (α × List α)

/-- What stands after the first word where `f` replaces the words. -/
def tail (f : List α → List α) : List (α × List α) → List α
  | [] => []
  | (c, w) :: rest => c :: (f w ++ tail f rest)

def Text.render (f : List α → List α) (t : Text α) : List α := f t.first ++ tail f t.rest

def split (letter : α → Bool) : List α → Text α
  | [] => ⟨[], []⟩
  | c :: s =>
    if letter c then ⟨c :: (split letter s).first, (split letter s).rest⟩
    else ⟨[], (c, (split letter s).first) :: (split letter s).rest⟩

def Text.words (t : Text α) : List (List α) := t.first :: t.rest.map Prod.snd

theorem render_split (s : List α) : (split letter s).render id = s := by
  induction s with
  | nil => rfl
  | cons c s ih =>
    rw [Text.render] at ih
    rw [split]
    split_ifs
    · exact congrArg (c :: ·) ih
    · exact congrArg (c :: ·) ih

/-- The words are of letters, and what separates them is not. -/
structure Text.Proper (letter : α → Bool) (t : Text α) : Prop where
  word : ∀ w ∈ t.words, ∀ c ∈ w, letter c
  gap : ∀ p ∈ t.rest, ¬ letter p.1

theorem split_proper (letter : α → Bool) (s : List α) : (split letter s).Proper letter := by
  induction s with
  | nil => exact ⟨by simp [split, Text.words], by simp [split]⟩
  | cons c s ih =>
    obtain ⟨hword, hgap⟩ := ih
    rw [Text.words, List.forall_mem_cons] at hword
    obtain ⟨hfirst, hrest⟩ := hword
    rw [split]
    split_ifs with hc
    · refine ⟨?_, hgap⟩
      rw [Text.words, List.forall_mem_cons]
      exact ⟨List.forall_mem_cons.mpr ⟨hc, hfirst⟩, hrest⟩
    · refine ⟨?_, List.forall_mem_cons.mpr ⟨hc, hgap⟩⟩
      rw [Text.words, List.forall_mem_cons, List.map_cons, List.forall_mem_cons]
      exact ⟨fun _ h => (by cases h), hfirst, hrest⟩

/-! ## After a word -/

/-- What may come after a word. -/
def Break (letter : α → Bool) (r : List α) : Prop := ∀ c ∈ r.head?, ¬ letter c

theorem break_nil : Break letter [] := by
  intro c hc
  cases hc

theorem break_cons {c : α} {r : List α} (hc : ¬ letter c) : Break letter (c :: r) := by
  intro d hd
  obtain rfl := Option.some.inj hd
  exact hc

theorem break_tail {f : List α → List α} {rest : List (α × List α)}
    (h : ∀ p ∈ rest, ¬ letter p.1) : Break letter (tail f rest) := by
  cases rest with
  | nil => exact break_nil
  | cons p rest => exact break_cons (h p List.mem_cons_self)

variable {k u w t t' r r' : List α}

/-- A word that begins a text begins its first part, or is longer and has all of that part. -/
theorem prefix_append_iff (hk : ∀ c ∈ k, letter c) (hr : Break letter r) :
    k <+: w ++ r ↔ k <+: w := by
  constructor
  · intro h
    obtain hle | hlt := Nat.lt_or_ge w.length k.length
    · obtain ⟨d, rfl⟩ : w <+: k :=
        List.prefix_of_prefix_length_le (List.prefix_append w r) h hle.le
      rw [List.prefix_append_right_inj] at h
      cases d with
      | nil => simp at hle
      | cons c d =>
        obtain ⟨s, rfl⟩ := h
        exact absurd (hk c (by simp)) (hr c rfl)
    · exact List.prefix_of_prefix_length_le h (List.prefix_append w r) hlt
  · intro h
    exact h.trans (List.prefix_append w r)

theorem takeWhile_word (hw : ∀ c ∈ w, letter c) (hr : Break letter r) :
    (w ++ r).takeWhile letter = w := by
  rw [List.takeWhile_append_of_pos hw]
  cases r with
  | nil => simp
  | cons c r => rw [List.takeWhile_cons_of_neg (hr c rfl), List.append_nil]

/-- A text that begins with a word is no other text with at most as many letters after a part that
the word does not begin. -/
theorem append_ne (hk : ∀ c ∈ k, letter c) (hu : ¬ k <+: u) (ht : ∀ c ∈ t, letter c)
    (ht' : ∀ c ∈ t', letter c) (hle : t.length ≤ t'.length) (hr : Break letter r)
    (hr' : Break letter r') : u ++ t ++ r ≠ k ++ t' ++ r' := by
  intro h
  have hstart : k <+: u ++ (t ++ r) := by
    rw [← List.append_assoc, h, List.append_assoc]
    exact List.prefix_append _ _
  obtain hlen | hlen := Nat.lt_or_ge u.length k.length
  · have huk : u <+: k := List.prefix_of_prefix_length_le (List.prefix_append u _) hstart hlen.le
    have hul : ∀ c ∈ u ++ t, letter c := by
      intro c hc
      obtain hc | hc := List.mem_append.mp hc
      · exact hk c (huk.subset hc)
      · exact ht c hc
    have hkl : ∀ c ∈ k ++ t', letter c := by
      intro c hc
      exact (List.mem_append.mp hc).elim (hk c) (ht' c)
    have heq : u ++ t = k ++ t' := by
      rw [← takeWhile_word hul hr, h, takeWhile_word hkl hr']
    have hlength := congrArg List.length heq
    rw [List.length_append, List.length_append] at hlength
    omega
  · exact hu (List.prefix_of_prefix_length_le hstart (List.prefix_append u _) hlen)

section Count

variable [BEq α]

theorem count_tail (d : α) (f : List α → List α) (w : List α) (rest : List (α × List α)) :
    (f w ++ tail f rest).count d = ((w :: rest.map Prod.snd).map fun v => (f v).count d).sum +
      (rest.map Prod.fst).count d := by
  induction rest generalizing w with
  | nil => simp [tail]
  | cons p rest ih =>
    obtain ⟨c, v⟩ := p
    have hrest := ih v
    rw [tail, List.count_append, List.count_cons, hrest]
    simp only [List.map_cons, List.sum_cons, List.count_cons]
    omega

variable [LawfulBEq α] {d : α} {f : List α → List α}

/-- Words without a character are made to words without it, if there are no more of it in the
text. -/
theorem not_mem_of_count_le {w : List α} {rest : List (α × List α)}
    (hno : ∀ v ∈ w :: rest.map Prod.snd, d ∉ v)
    (h : (f w ++ tail f rest).count d ≤ (w ++ tail id rest).count d) :
    ∀ v ∈ w :: rest.map Prod.snd, d ∉ f v := by
  have hid := count_tail d id w rest
  have hzero : ((w :: rest.map Prod.snd).map fun v => (id v).count d).sum = 0 := by
    rw [List.sum_eq_zero_iff]
    intro n hn
    obtain ⟨v, hv, rfl⟩ := List.mem_map.mp hn
    exact List.count_eq_zero_of_not_mem (hno v hv)
  rw [count_tail d f] at h
  rw [id, hzero] at hid
  have hsum : ((w :: rest.map Prod.snd).map fun v => (f v).count d).sum = 0 := by omega
  intro v hv
  rw [← List.count_eq_zero]
  exact List.sum_eq_zero_iff.mp hsum _ (List.mem_map_of_mem hv)

end Count

/-! ## Before a word -/

/-- What may come before a word. -/
def Closed (letter : α → Bool) (y : List α) : Prop := ∀ c ∈ y.getLast?, ¬ letter c

theorem closed_rdropWhile (x : List α) : Closed letter (x.rdropWhile letter) := by
  intro c hc
  obtain ⟨hne, rfl⟩ := List.mem_getLast?_eq_getLast hc
  exact List.rdropWhile_last_not letter x hne

variable {a y s : List α}

theorem Closed.suffix (h : Closed letter y) (ha : a <:+ y) : Closed letter a := by
  intro c hc
  obtain ⟨b, rfl⟩ := ha
  refine h c ?_
  rw [List.getLast?_append, Option.mem_def.mp hc]
  rfl

theorem Closed.singleton {c : α} (h : Closed letter [c]) : ¬ letter c := h c rfl

theorem Closed.rdropWhile_append (ha : Closed letter a) (u : List α) :
    (a ++ u).rdropWhile letter = a ++ u.rdropWhile letter := by
  induction u using List.reverseRecOn with
  | nil =>
    rw [List.append_nil, List.rdropWhile_nil, List.append_nil, List.rdropWhile_eq_self_iff]
    exact fun hne => ha _ (List.getLast?_eq_some_getLast hne)
  | append_singleton u c ih =>
    rw [← List.append_assoc, List.rdropWhile_concat, List.rdropWhile_concat, ih]
    split_ifs
    · rfl
    · rw [List.append_assoc]

/-- A word begins in what comes before a word only if it ends there too. -/
theorem Closed.prefix_append (hy : Closed letter y) (hne : y ≠ []) (hk : ∀ c ∈ k, letter c)
    (h : k <+: y ++ s) : k <+: y := by
  obtain hle | hlt := Nat.lt_or_ge y.length k.length
  · have hyk : y <+: k := List.prefix_of_prefix_length_le (List.prefix_append y s) h hle.le
    have hlast := hy _ (List.getLast?_eq_some_getLast hne)
    exact absurd (hk _ (hyk.subset (List.getLast_mem hne))) hlast
  · exact List.prefix_of_prefix_length_le h (List.prefix_append y s) hlt

/-- A word is not in a text across its border to what comes before a word. -/
theorem Closed.not_infix_append (ha : Closed letter a) (hk : ∀ c ∈ k, letter c)
    (hka : ¬ k <:+: a) (hku : ¬ k <:+: u) : ¬ k <:+: a ++ u := by
  induction a with
  | nil => exact hku
  | cons c a ih =>
    rw [List.cons_append, List.infix_cons_iff]
    rintro (h | h)
    · exact hka (ha.prefix_append (List.cons_ne_nil c a) hk h).isInfix
    · by_cases hne : a = []
      · rw [hne] at h
        exact hku h
      · exact ih (ha.suffix (List.suffix_cons c a)) (fun h => hka (List.infix_cons h)) h

/-! ## The last word of a text -/

variable {x : List α}

/-- The last word of a text with the letters behind it. -/
theorem rtakeWhile_append_letters (ht : ∀ c ∈ t, letter c) :
    ∀ c ∈ x.rtakeWhile letter ++ t, letter c := by
  intro c hc
  obtain hc | hc := List.mem_append.mp hc
  · exact List.mem_rtakeWhile_imp hc
  · exact ht c hc

theorem letters_of_rtakeWhile (ht : ∀ c ∈ t, letter c)
    (h : x.rtakeWhile letter ++ t = k ++ t') : ∀ c ∈ t', letter c := by
  intro c hc
  apply rtakeWhile_append_letters ht c
  rw [h]
  exact List.mem_append_right _ hc

/-- A word that is not in a text but begins with its last word takes letters behind it. -/
theorem length_le_of_rtakeWhile (hx : ¬ k <:+: x) (h : x.rtakeWhile letter ++ t = k ++ t') :
    t'.length ≤ t.length := by
  by_contra hlt
  have hlen := congrArg List.length h
  rw [List.length_append, List.length_append] at hlen
  have hstart : k <+: x.rtakeWhile letter :=
    List.prefix_of_prefix_length_le ⟨t', h.symm⟩ (List.prefix_append _ t) (by omega)
  exact hx (hstart.isInfix.trans (List.rtakeWhile_suffix letter x).isInfix)

/-- A word in neither text is not in what comes before the last word of the one and the other. -/
theorem not_infix_rdropWhile_append (hk : ∀ c ∈ k, letter c) (hx : ¬ k <:+: x)
    (hu : ¬ k <:+: u) : ¬ k <:+: x.rdropWhile letter ++ u :=
  (closed_rdropWhile x).not_infix_append hk
    (fun h => hx (h.trans (List.rdropWhile_prefix letter x).isInfix)) hu

/-- What `takeWhile` and `dropWhile` need to pass over a text without a character. -/
theorem forall_ne [DecidableEq α] {d : α} (h : d ∉ u) : ∀ c ∈ u, decide (c ≠ d) = true := by
  intro c hc
  apply decide_eq_true
  intro heq
  exact h (heq ▸ hc)

end Words
