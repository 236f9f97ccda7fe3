import Damaris.Lib.NestedList

/-!
# Reading nested lists

A reader for nested lists in brackets. It reads what is written, whatever blanks there are and
whether or not a comma follows the last element.
-/
namespace NestedList

variable {α : Type}

def skip (s : List Char) : List Char := s.dropWhile isBlank

mutual

/-- An element, a leaf or a list, with the text that follows it. -/
def readElem (leaf : List Char → Option (α × List Char)) :
    ℕ → List Char → Option (Nested α × List Char)
  | 0, _ => none
  | n + 1, '[' :: s =>
    match skip s with
    | ']' :: s => some (.list [], s)
    | s => (readElems leaf n s).map fun r => (.list r.1, r.2)
  | _ + 1, s => (leaf s).map fun r => (.leaf r.1, r.2)

/-- The elements up to the bracket that closes them. -/
def readElems (leaf : List Char → Option (α × List Char)) :
    ℕ → List Char → Option (List (Nested α) × List Char)
  | 0, _ => none
  | n + 1, s =>
    (readElem leaf n s).bind fun x =>
      match skip x.2 with
      | ']' :: s => some ([x.1], s)
      | ',' :: s =>
        match skip s with
        | ']' :: s => some ([x.1], s)
        | s => (readElems leaf n s).map fun r => (x.1 :: r.1, r.2)
      | _ => none

end

/-- The reader reads what the text of a leaf says, which is not taken for anything else. -/
structure Reads (leaf : List Char → Option (α × List Char)) (text : α → List Char) : Prop where
  read : ∀ a rest, leaf (text a ++ rest) = some (a, rest)
  start : ∀ a, ∃ c s, text a = c :: s ∧ c ≠ '[' ∧ c ≠ ']' ∧ isBlank c = false

/-- What may stand behind the elements of a list. -/
inductive Closes : List Char → List Char → Prop
  | plain {w rest : List Char} (hw : Blank w) : Closes (w ++ ']' :: rest) rest
  | comma {w w' rest : List Char} (hw : Blank w) (hw' : Blank w') :
      Closes (w ++ ',' :: (w' ++ ']' :: rest)) rest

theorem skip_append {w : List Char} (hw : Blank w) {c : Char} (hc : isBlank c = false)
    (s : List Char) : skip (w ++ c :: s) = c :: s := by
  rw [skip, List.dropWhile_append_of_pos hw, List.dropWhile_cons_of_neg (by simp [hc])]

variable {leaf : List Char → Option (α × List Char)} {text : α → List Char}

theorem Writes.ne_nil {s : List Char} {xs : List (Nested α)} (h : Writes text s xs) : xs ≠ [] := by
  cases h with
  | leaf a => exact List.cons_ne_nil _ _
  | empty hw => exact List.cons_ne_nil _ _
  | list hw hw' h => exact List.cons_ne_nil _ _
  | trailing hw hw' hw'' h => exact List.cons_ne_nil _ _
  | cons hw hw' hs ht => exact List.cons_ne_nil _ _

/-- Elements begin neither with a blank nor with a bracket that closes. -/
theorem Writes.start (hleaf : Reads leaf text) {s : List Char} {xs : List (Nested α)}
    (h : Writes text s xs) : ∃ c t, s = c :: t ∧ c ≠ ']' ∧ isBlank c = false := by
  induction h with
  | leaf a =>
    obtain ⟨c, t, ht, -, hc, hblank⟩ := hleaf.start a
    exact ⟨c, t, ht, hc, hblank⟩
  | empty hw => exact ⟨'[', _, rfl, by decide, rfl⟩
  | list hw hw' h _ => exact ⟨'[', _, rfl, by decide, rfl⟩
  | trailing hw hw' hw'' h _ => exact ⟨'[', _, rfl, by decide, rfl⟩
  | cons hw hw' hs ht ih _ =>
    obtain ⟨c, t, rfl, hc, hblank⟩ := ih
    exact ⟨c, _, rfl, hc, hblank⟩

/-- A list is read when its elements are. -/
theorem readElem_list (hleaf : Reads leaf text) {w inner tail rest : List Char}
    {xs : List (Nested α)} {n : ℕ} (hw : Blank w) (h : Writes text inner xs)
    (hread : readElems leaf n (inner ++ tail) = some (xs, rest)) :
    readElem leaf (n + 1) ('[' :: (w ++ (inner ++ tail))) = some (.list xs, rest) := by
  obtain ⟨c, t, rfl, hc, hblank⟩ := h.start hleaf
  rw [List.cons_append] at hread ⊢
  rw [readElem, skip_append hw hblank]
  split
  case h_1 heq => exact absurd (List.cons.inj heq).1 hc
  case h_2 => rw [hread, Option.map_some]

/-- The last element is read when it is by itself. -/
theorem readElems_single {s tail rest : List Char} {x : Nested α} {n : ℕ}
    (hread : readElem leaf n (s ++ tail) = some (x, tail)) (htail : Closes tail rest) :
    readElems leaf (n + 1) (s ++ tail) = some ([x], rest) := by
  rw [readElems, hread, Option.bind_some]
  cases htail with
  | plain hw =>
    rw [skip_append hw rfl]
    rfl
  | comma hw hw' =>
    rw [skip_append hw rfl]
    simp only
    rw [skip_append hw' rfl]
    rfl

/-- An element that others follow. -/
theorem readElems_cons (hleaf : Reads leaf text) {w w' s t tail rest : List Char} {x : Nested α}
    {xs : List (Nested α)} {n : ℕ} (hw : Blank w) (hw' : Blank w') (ht : Writes text t xs)
    (hx : readElem leaf n (s ++ (w ++ ',' :: (w' ++ (t ++ tail)))) =
      some (x, w ++ ',' :: (w' ++ (t ++ tail))))
    (hxs : readElems leaf n (t ++ tail) = some (xs, rest)) :
    readElems leaf (n + 1) (s ++ (w ++ ',' :: (w' ++ (t ++ tail)))) = some (x :: xs, rest) := by
  obtain ⟨c, t, rfl, hc, hblank⟩ := ht.start hleaf
  rw [readElems, hx, Option.bind_some, skip_append hw rfl]
  rw [List.cons_append] at hxs ⊢
  simp only
  rw [skip_append hw' hblank]
  split
  case h_1 heq => exact absurd (List.cons.inj heq).1 hc
  case h_2 => rw [hxs, Option.map_some]

/-- Written elements are read, a single one by itself and all of them in a list. -/
theorem read_of_writes (hleaf : Reads leaf text) {s : List Char} {xs : List (Nested α)}
    (h : Writes text s xs) :
    (∀ x, xs = [x] → ∀ n rest, s.length ≤ n → readElem leaf n (s ++ rest) = some (x, rest)) ∧
      ∀ n tail rest, s.length + 1 ≤ n → Closes tail rest →
        readElems leaf n (s ++ tail) = some (xs, rest) := by
  have hsingle : ∀ {s : List Char} {x : Nested α},
      (∀ n rest, s.length ≤ n → readElem leaf n (s ++ rest) = some (x, rest)) →
        (∀ y, [x] = [y] → ∀ n rest, s.length ≤ n → readElem leaf n (s ++ rest) = some (y, rest)) ∧
          ∀ n tail rest, s.length + 1 ≤ n → Closes tail rest →
            readElems leaf n (s ++ tail) = some ([x], rest) := by
    intro s x hread
    refine ⟨fun y hy => (List.cons.inj hy).1 ▸ hread, fun n tail rest hn htail => ?_⟩
    obtain ⟨n, rfl⟩ : ∃ k, n = k + 1 := ⟨n - 1, by omega⟩
    exact readElems_single (hread n tail (by omega)) htail
  induction h with
  | leaf a =>
    refine hsingle fun n rest hn => ?_
    obtain ⟨c, s, hs, hc, -, -⟩ := hleaf.start a
    obtain ⟨n, rfl⟩ : ∃ k, n = k + 1 := ⟨n - 1, by rw [hs, List.length_cons] at hn; omega⟩
    have hread := hleaf.read a rest
    rw [hs, List.cons_append] at hread ⊢
    rw [readElem, hread, Option.map_some]
    exact fun _ heq => hc (List.cons.inj heq).1
  | @empty w hw =>
    refine hsingle fun n rest hn => ?_
    obtain ⟨n, rfl⟩ : ∃ k, n = k + 1 := ⟨n - 1, by simp at hn; omega⟩
    rw [List.cons_append, List.cons_append, readElem, List.append_assoc, List.singleton_append,
      skip_append hw rfl]
    rfl
  | @list w w' inner xs hw hw' h ih =>
    refine hsingle fun n rest hn => ?_
    obtain ⟨n, rfl⟩ : ∃ k, n = k + 1 := ⟨n - 1, by simp at hn; omega⟩
    have htext : '[' :: w ++ inner ++ w' ++ [']'] ++ rest =
        '[' :: (w ++ (inner ++ (w' ++ ']' :: rest))) := by simp
    rw [htext]
    exact readElem_list hleaf hw h (ih.2 n _ rest (by simp at hn; omega) (.plain hw'))
  | @trailing w w' w'' inner xs hw hw' hw'' h ih =>
    refine hsingle fun n rest hn => ?_
    obtain ⟨n, rfl⟩ : ∃ k, n = k + 1 := ⟨n - 1, by simp at hn; omega⟩
    have htext : '[' :: w ++ inner ++ w' ++ ',' :: w'' ++ [']'] ++ rest =
        '[' :: (w ++ (inner ++ (w' ++ ',' :: (w'' ++ ']' :: rest)))) := by simp
    rw [htext]
    exact readElem_list hleaf hw h (ih.2 n _ rest (by simp at hn; omega) (.comma hw' hw''))
  | @cons w w' s t x xs hw hw' hs ht ihs iht =>
    refine ⟨fun y hy => absurd (List.cons.inj hy).2 ht.ne_nil, fun n tail rest hn htail => ?_⟩
    obtain ⟨n, rfl⟩ : ∃ k, n = k + 1 := ⟨n - 1, by omega⟩
    have htext : s ++ w ++ ',' :: w' ++ t ++ tail = s ++ (w ++ ',' :: (w' ++ (t ++ tail))) := by simp
    simp at hn
    rw [htext]
    exact readElems_cons hleaf hw hw' ht (ihs.1 x rfl n _ (by omega))
      (iht.2 n tail rest (by omega) htail)

/-- The whole text of an element. -/
def readAll (leaf : List Char → Option (α × List Char)) (s : List Char) : Option (Nested α) :=
  match readElem leaf s.length s with
  | some (x, []) => some x
  | _ => none

theorem readAll_of_writes (hleaf : Reads leaf text) {s : List Char} {x : Nested α}
    (h : Writes text s [x]) : readAll leaf s = some x := by
  have hread := (read_of_writes hleaf h).1 x rfl s.length [] le_rfl
  rw [List.append_nil] at hread
  rw [readAll, hread]

end NestedList
