import Mathlib.Tactic

/-!
# Nested lists and their text

The points of a grid in lexicographic order, the nested list that arranges values by them, and how
such a list is written with brackets and commas. Between the brackets there may be blanks.
-/
namespace NestedList

variable {α β : Type}

inductive Nested (α : Type)
  | leaf (a : α)
  | list (elems : List (Nested α))

/-- The points of a grid, given by the places along each axis. -/
def grid : List (List β) → List (List β)
  | [] => [[]]
  | axis :: axes => axis.flatMap fun x => (grid axes).map (x :: ·)

/-- One level of lists for each axis. -/
def arrange : List (List β) → (List β → α) → Nested α
  | [], f => .leaf (f [])
  | axis :: axes, f => .list (axis.map fun x => arrange axes fun p => f (x :: p))

/-- The leaves from left to right. -/
def Nested.leaves : Nested α → List α
  | .leaf a => [a]
  | .list elems => elems.flatMap leaves

/-- How many lists start where the nested list starts. -/
def Nested.opening : Nested α → ℕ
  | .leaf _ => 0
  | .list [] => 1
  | .list (x :: _) => x.opening + 1

theorem leaves_arrange (axes : List (List β)) (f : List β → α) :
    (arrange axes f).leaves = (grid axes).map f := by
  induction axes generalizing f with
  | nil => simp [arrange, Nested.leaves, grid]
  | cons axis axes ih =>
    rw [arrange, Nested.leaves, grid, List.flatMap_map, List.map_flatMap]
    simp only [ih, List.map_map]
    rfl

theorem opening_arrange {axes : List (List β)} (hne : ∀ axis ∈ axes, axis ≠ []) (f : List β → α) :
    (arrange axes f).opening = axes.length := by
  induction axes generalizing f with
  | nil => simp [arrange, Nested.opening]
  | cons axis axes ih =>
    obtain ⟨x, xs, rfl⟩ := List.exists_cons_of_ne_nil (hne axis List.mem_cons_self)
    rw [arrange, List.map_cons, Nested.opening, ih fun a ha => hne a (List.mem_cons_of_mem _ ha),
      List.length_cons]

/-! ## The order of the points -/

theorem length_of_mem_grid {axes : List (List β)} {p : List β} (h : p ∈ grid axes) :
    p.length = axes.length := by
  induction axes generalizing p with
  | nil => rw [List.mem_singleton.mp h]; rfl
  | cons axis axes ih =>
    obtain ⟨x, -, hmem⟩ := List.mem_flatMap.mp h
    obtain ⟨q, hq, rfl⟩ := List.mem_map.mp hmem
    rw [List.length_cons, List.length_cons, ih hq]

theorem pairwise_grid [LinearOrder β] {axes : List (List β)}
    (hsorted : ∀ axis ∈ axes, axis.Pairwise (· < ·)) : (grid axes).Pairwise (· < ·) := by
  induction axes with
  | nil => simp [grid]
  | cons axis axes ih =>
    have hrest := ih fun a ha => hsorted a (List.mem_cons_of_mem _ ha)
    rw [grid, List.pairwise_flatMap]
    constructor
    · intro x _
      rw [List.pairwise_map]
      exact hrest.imp fun h => List.cons_lt_cons_iff.mpr (.inr ⟨rfl, h⟩)
    · refine (hsorted axis List.mem_cons_self).imp ?_
      intro x y hxy p hp q hq
      obtain ⟨p, -, rfl⟩ := List.mem_map.mp hp
      obtain ⟨q, -, rfl⟩ := List.mem_map.mp hq
      exact List.cons_lt_cons_iff.mpr (.inl hxy)

/-! ## The text -/

def isBlank (c : Char) : Bool := c = ' ' || c = '\n' || c = '\t' || c = '\r'

/-- Text of blanks only. -/
def Blank (w : List Char) : Prop := ∀ c ∈ w, isBlank c = true

/-- The text writes the elements with commas between them, each leaf by its text. Blanks, and a comma
after the last element, may stand inside brackets. -/
inductive Writes (text : α → List Char) : List Char → List (Nested α) → Prop
  | leaf (a : α) : Writes text (text a) [.leaf a]
  | empty {w : List Char} (hw : Blank w) : Writes text ('[' :: w ++ [']']) [.list []]
  | list {w w' inner : List Char} {xs : List (Nested α)} (hw : Blank w) (hw' : Blank w')
      (h : Writes text inner xs) : Writes text ('[' :: w ++ inner ++ w' ++ [']']) [.list xs]
  | trailing {w w' w'' inner : List Char} {xs : List (Nested α)} (hw : Blank w) (hw' : Blank w')
      (hw'' : Blank w'') (h : Writes text inner xs) :
      Writes text ('[' :: w ++ inner ++ w' ++ ',' :: w'' ++ [']']) [.list xs]
  | cons {w w' s t : List Char} {x : Nested α} {xs : List (Nested α)} (hw : Blank w) (hw' : Blank w')
      (hs : Writes text s [x]) (ht : Writes text t xs) :
      Writes text (s ++ w ++ ',' :: w' ++ t) (x :: xs)

/-- The brackets that open before anything else comes. -/
def brackets : List Char → ℕ
  | [] => 0
  | c :: cs => if c = '[' then brackets cs + 1 else if isBlank c then brackets cs else 0

theorem brackets_blank {w : List Char} (h : Blank w) (s : List Char) :
    brackets (w ++ s) = brackets s := by
  induction w with
  | nil => rfl
  | cons c w ih =>
    have hc : isBlank c = true := h c List.mem_cons_self
    have hne : c ≠ '[' := by
      rintro rfl
      cases hc
    rw [List.cons_append, brackets, if_neg hne, if_pos hc,
      ih fun d hd => h d (List.mem_cons_of_mem _ hd)]

theorem opening_list_le {xs : List (Nested α)} {n : ℕ} (h : ∀ x ∈ xs.head?, x.opening ≤ n) :
    (Nested.list xs).opening ≤ n + 1 := by
  cases xs with
  | nil => simp [Nested.opening]
  | cons x xs =>
    rw [Nested.opening]
    exact Nat.succ_le_succ (h x rfl)

theorem brackets_open {w : List Char} (hw : Blank w) (s : List Char) :
    brackets ('[' :: w ++ s) = brackets s + 1 := by
  rw [List.cons_append, brackets, if_pos rfl, brackets_blank hw]

/-- What is written opens as many brackets as there are lists that start. -/
theorem opening_le_brackets {text : α → List Char} {s : List Char} {xs : List (Nested α)}
    (h : Writes text s xs) (rest : List Char) :
    ∀ x ∈ xs.head?, x.opening ≤ brackets (s ++ rest) := by
  induction h generalizing rest with
  | leaf a =>
    rintro x ⟨rfl⟩
    exact Nat.zero_le _
  | @empty w hw =>
    rintro x ⟨rfl⟩
    rw [List.append_assoc, brackets_open hw]
    exact Nat.succ_le_succ (Nat.zero_le _)
  | @list w w' inner xs hw hw' h ih =>
    rintro x ⟨rfl⟩
    have htext : '[' :: w ++ inner ++ w' ++ [']'] ++ rest =
        '[' :: w ++ (inner ++ (w' ++ [']'] ++ rest)) := by simp
    rw [htext, brackets_open hw]
    exact opening_list_le (ih _)
  | @trailing w w' w'' inner xs hw hw' hw'' h ih =>
    rintro x ⟨rfl⟩
    have htext : '[' :: w ++ inner ++ w' ++ ',' :: w'' ++ [']'] ++ rest =
        '[' :: w ++ (inner ++ (w' ++ ',' :: w'' ++ [']'] ++ rest)) := by simp
    rw [htext, brackets_open hw]
    exact opening_list_le (ih _)
  | @cons w w' s t x xs hw hw' hs ht ihs _ =>
    rintro y ⟨rfl⟩
    have htext : s ++ w ++ ',' :: w' ++ t ++ rest = s ++ (w ++ ',' :: w' ++ t ++ rest) := by simp
    rw [htext]
    exact ihs _ x rfl

/-! ## Rows -/

/-- Written, but for blanks at the end. -/
def Ends (text : α → List Char) (s : List Char) (xs : List (Nested α)) : Prop :=
  ∃ t w, s = t ++ w ∧ Blank w ∧ Writes text t xs

theorem blank_nil : Blank [] := fun _ h => absurd h List.not_mem_nil

theorem Writes.ends {text : α → List Char} {s : List Char} {xs : List (Nested α)}
    (h : Writes text s xs) : Ends text s xs :=
  ⟨s, [], (List.append_nil s).symm, blank_nil, h⟩

theorem Ends.cons {text : α → List Char} {s t : List Char} {x : Nested α} {xs : List (Nested α)}
    (hs : Ends text s [x]) (ht : Ends text t xs) : Ends text (s ++ ',' :: t) (x :: xs) := by
  obtain ⟨s, w, rfl, hw, hs⟩ := hs
  obtain ⟨t, w', rfl, hw', ht⟩ := ht
  refine ⟨s ++ w ++ ',' :: t, w', by simp, hw', ?_⟩
  simpa using Writes.cons hw blank_nil hs ht

theorem Ends.list {text : α → List Char} {inner w : List Char} {xs : List (Nested α)}
    (h : Ends text inner xs) (hw : Blank w) : Ends text ('[' :: inner ++ ']' :: w) [.list xs] := by
  obtain ⟨inner, w', rfl, hw', h⟩ := h
  refine ⟨'[' :: inner ++ w' ++ [']'], w, by simp, hw, ?_⟩
  exact .list blank_nil hw' h

/-- A text that ends in a bracket has no blanks at its end. -/
theorem Ends.writes {text : α → List Char} {s : List Char} {xs : List (Nested α)}
    (h : Ends text (s ++ [']']) xs) : Writes text (s ++ [']']) xs := by
  obtain ⟨t, w, heq, hw, h⟩ := h
  rcases List.eq_nil_or_concat' w with rfl | ⟨w, c, rfl⟩
  · rwa [heq, List.append_nil]
  · have hc : isBlank c = true := hw c (by simp)
    rw [← List.append_assoc] at heq
    obtain rfl : ']' = c := List.singleton_inj.mp (List.append_inj_right' heq rfl)
    cases hc

/-- So many brackets, each with what follows it. -/
def closing (w : List Char) : ℕ → List Char
  | 0 => []
  | n + 1 => ']' :: w ++ closing w n

theorem closing_succ' (w : List Char) (n : ℕ) : closing w (n + 1) = closing w n ++ ']' :: w := by
  induction n with
  | zero => simp [closing]
  | succ n ih =>
    calc closing w (n + 2) = ']' :: w ++ closing w (n + 1) := rfl
      _ = ']' :: w ++ (closing w n ++ ']' :: w) := by rw [ih]
      _ = closing w (n + 1) ++ ']' :: w := by rw [← List.append_assoc, closing]

/-- The text between the first leaf and the last: rows are closed, and opened again. -/
def rows (text : α → List Char) (w : List Char) : List (List β) → (List β → α) → List Char
  | [], f => text (f [])
  | axis :: axes, f =>
    (closing w axes.length ++ ',' :: List.replicate axes.length '[').intercalate
      (axis.map fun x => rows text w axes fun p => f (x :: p))

/-- The rows between their brackets write the arrangement. The induction is on the axes, and inside
it on the places along the first one: all rows but the last are closed by the separator. -/
theorem rows_ends (text : α → List Char) {w w' : List Char} (hw : Blank w) (hw' : Blank w')
    {axes : List (List β)} (hne : ∀ axis ∈ axes, axis ≠ []) (f : List β → α) :
    Ends text (List.replicate axes.length '[' ++ rows text w axes f ++ closing w' axes.length)
      [arrange axes f] := by
  induction axes generalizing f w' with
  | nil => simpa [rows, arrange, closing] using (Writes.leaf (f [])).ends
  | cons axis axes ih =>
    have hrest : ∀ a ∈ axes, a ≠ [] := fun a ha => hne a (List.mem_cons_of_mem _ ha)
    have hinner : Ends text (List.replicate axes.length '[' ++
        (closing w axes.length ++ ',' :: List.replicate axes.length '[').intercalate
          (axis.map fun x => rows text w axes fun p => f (x :: p)) ++ closing w' axes.length)
        (axis.map fun x => arrange axes fun p => f (x :: p)) := by
      obtain ⟨x, xs, hxs⟩ := List.exists_cons_of_ne_nil (hne axis List.mem_cons_self)
      clear hne
      subst hxs
      induction xs generalizing x with
      | nil => simpa using ih hw' hrest fun p => f (x :: p)
      | cons y ys ihys =>
        have hcons := (ih hw hrest fun p => f (x :: p)).cons (ihys y)
        simpa [List.intercalate] using hcons
    have hlist := hinner.list hw'
    rw [List.length_cons, closing_succ']
    simpa [rows, arrange, List.replicate_succ] using hlist

end NestedList
