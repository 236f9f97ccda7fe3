import Damaris.Lib.NestedList

/-!
# The layout of a Dask array

`return_dask_block_layout` writes a nested Python list of blocks. It walks through the blocks in
the order of their offsets and puts a separator between each two, which closes and opens as many
rows as the offsets start over in.
-/
namespace Damaris.DaskLayout

open NestedList

/-- What stands between the quotes of a Python string without escapes. -/
structure PlainString where
  chars : List Char
  plain : ∀ c ∈ chars, c ∉ "'\\\n".toList

/-- The name of a Python variable. -/
structure Name where
  chars : List Char
  nonempty : chars ≠ []
  word : ∀ c ∈ chars, c.isAlphanum ∨ c = '_'

/-- A tuple of the list: two names, and the offsets of the block. -/
structure Item where
  pubName : PlainString
  key : PlainString
  offsets : List ℤ

/-- The length of that tuple. -/
def Item.len (_ : Item) : ℕ := 3

/-- The block, as Python finds it. -/
def fullStr (client : Name) (x : PlainString × PlainString) : List Char :=
  client.chars ++ ".datasets['".toList ++ x.1.chars ++ "']['".toList ++ x.2.chars ++ "']".toList

/-- `return_separator`: `none` where a tuple has no such dimension. -/
def returnSeparator (p0 p1 : List ℤ) : ℕ → List Char → Bool → Option (List Char × Bool)
  | 0, instr, firstElem => do
    let x1 ← p1[0]?
    let x0 ← p0[0]?
    if x1 > x0 then some (instr ++ [','], false) else some ([], firstElem)
  | dim + 1, instr, _ => do
    let x1 ← p1[dim + 1]?
    let x0 ← p0[dim + 1]?
    if x1 > x0 then some (instr ++ [','], false)
    else (returnSeparator p0 p1 dim (instr ++ [']', '\n']) false).map fun r => (r.1 ++ ['['], true)

/-- The loop of `return_dask_block_layout` over the blocks that follow the first one. -/
def separated (client : Name) (tupLen : ℕ) : List ℤ → Bool → List Item → Option (List Char)
  | _, _, [] => some []
  | p0, firstElem, item :: items =>
    (returnSeparator p0 item.offsets (tupLen - 1) [] firstElem).bind fun sep =>
      (separated client tupLen item.offsets sep.2 items).map fun rest =>
        sep.1 ++ fullStr client (item.pubName, item.key) ++ rest

/-- `return_dask_block_layout`: `none` where the list or a tuple is too short. -/
def returnDaskBlockLayout (mylistSorted : List Item) (client : Name) : Option (List Char) :=
  mylistSorted[2]?.bind fun third =>
    let tupLen := third.len
    mylistSorted.head?.bind fun first =>
      (separated client tupLen first.offsets false mylistSorted.tail).map fun rest =>
        "data = ".toList ++ List.replicate tupLen '[' ++ fullStr client (first.pubName, first.key) ++
          rest ++ List.replicate tupLen ']'

/-- `return_dask_array` sorts the blocks of all servers by their offsets. -/
def mylistSorted (listMerged : List Item) : List Item :=
  listMerged.mergeSort fun x y => decide (x.offsets ≤ y.offsets)

/-- The text assigns a nested list of blocks. -/
def ParsesAs (client : Name) (s : List Char) (x : Nested (PlainString × PlainString)) : Prop :=
  ∃ t, s = "data = ".toList ++ t ∧ Writes (fullStr client) t [x]

/-- The block at these offsets. -/
def Item.at (f : List ℤ → PlainString × PlainString) (p : List ℤ) : Item := ⟨(f p).1, (f p).2, p⟩

/-- The names that the text has for the block. -/
def Item.names (x : Item) : PlainString × PlainString := (x.pubName, x.key)

/-- The function returns a text of the nested list, with every block in it once. -/
def LaysOut (client : Name) (listMerged : List Item) (x : Nested (PlainString × PlainString)) :
    Prop :=
  ∃ s, returnDaskBlockLayout (mylistSorted listMerged) client = some s ∧ ParsesAs client s x ∧
    x.leaves.Perm (listMerged.map Item.names)

/-! ## One separator -/

theorem returnSeparator_flag (p0 p1 : List ℤ) (dim : ℕ) (instr : List Char) (b b' : Bool) :
    (returnSeparator p0 p1 dim instr b).map Prod.fst =
      (returnSeparator p0 p1 dim instr b').map Prod.fst := by
  cases dim with
  | zero =>
    cases h1 : p1[0]? <;> cases h0 : p0[0]? <;> simp [returnSeparator, h1, h0]
    split_ifs <;> rfl
  | succ dim => rfl

/-- Offsets that start over in the last dimensions, and grow in the one before. -/
theorem returnSeparator_eq {p0 p1 : List ℤ} {x0 x1 : ℤ} {k : ℕ} (h0 : p0[k]? = some x0)
    (h1 : p1[k]? = some x1) (hlt : x0 < x1) {m : ℕ}
    (hdown : ∀ j, k < j → j ≤ k + m → ∃ y0 y1, p0[j]? = some y0 ∧ p1[j]? = some y1 ∧ y1 ≤ y0)
    (instr : List Char) (b : Bool) :
    (returnSeparator p0 p1 (k + m) instr b).map Prod.fst =
      some (instr ++ closing ['\n'] m ++ ',' :: List.replicate m '[') := by
  induction m generalizing instr b with
  | zero =>
    cases k with
    | zero => simp [returnSeparator, h0, h1, hlt, closing]
    | succ k => simp [returnSeparator, h0, h1, hlt, closing]
  | succ m ih =>
    obtain ⟨y0, y1, hy0, hy1, hle⟩ := hdown (k + m + 1) (by omega) (by omega)
    have hrest := ih (fun j hj hjm => hdown j hj (by omega)) (instr ++ [']', '\n']) false
    obtain ⟨⟨s, b'⟩, hs, hs'⟩ := Option.map_eq_some_iff.mp hrest
    rw [← Nat.add_assoc, returnSeparator]
    simp only [hy0, hy1, Option.bind_eq_bind, Option.bind_some, if_neg (not_lt.mpr hle), hs,
      Option.map_some]
    dsimp only at hs'
    rw [hs']
    simp [closing, List.replicate_succ']

example : returnSeparator [0, 0, 4] [0, 4, 0] 2 [] false = some ("]\n,[".toList, true) := by decide

/-! ## The loop -/

variable {client : Name} {tupLen : ℕ}

theorem separated_flag (p0 : List ℤ) (b b' : Bool) (items : List Item) :
    separated client tupLen p0 b items = separated client tupLen p0 b' items := by
  induction items generalizing p0 b b' with
  | nil => rfl
  | cons item items ih =>
    have hsep := returnSeparator_flag p0 item.offsets (tupLen - 1) [] b b'
    rw [separated, separated]
    cases h : returnSeparator p0 item.offsets (tupLen - 1) [] b with
    | none =>
      rw [h] at hsep
      rw [Option.map_eq_none_iff.mp hsep.symm]
    | some r =>
      rw [h] at hsep
      obtain ⟨r', hr', hfst⟩ := Option.map_eq_some_iff.mp hsep.symm
      rw [hr', Option.bind_some, Option.bind_some, ih _ r.2 r'.2, hfst]

/-- The text of consecutive blocks, with what stands between them. -/
def itemsText (client : Name) (tupLen : ℕ) : List Item → Option (List Char)
  | [] => some []
  | item :: items =>
    (separated client tupLen item.offsets false items).map fun rest =>
      fullStr client (item.pubName, item.key) ++ rest

theorem returnDaskBlockLayout_eq {items : List Item} (hlen : 3 ≤ items.length) :
    returnDaskBlockLayout items client = (itemsText client 3 items).map fun t =>
      "data = ".toList ++ (List.replicate 3 '[' ++ t ++ List.replicate 3 ']') := by
  obtain ⟨a, b, c, rest, rfl⟩ : ∃ a b c rest, items = a :: b :: c :: rest := by
    match items, hlen with
    | a :: b :: c :: rest, _ => exact ⟨a, b, c, rest, rfl⟩
  simp only [returnDaskBlockLayout, itemsText, List.getElem?_cons_succ, List.getElem?_cons_zero,
    Option.bind_some, List.head?_cons, List.tail_cons, Item.len, Option.map_map]
  congr 1

/-- One separator, and the text of the rest. -/
theorem itemsText_cons_cons (a b : Item) (items : List Item) :
    itemsText client tupLen (a :: b :: items) =
      ((returnSeparator a.offsets b.offsets (tupLen - 1) [] false).map Prod.fst).bind fun s =>
        (itemsText client tupLen (b :: items)).map fun t =>
          fullStr client (a.pubName, a.key) ++ s ++ t := by
  rw [itemsText, separated]
  cases returnSeparator a.offsets b.offsets (tupLen - 1) [] false with
  | none => rfl
  | some r =>
    rw [Option.bind_some, Option.map_some, Option.bind_some, itemsText,
      separated_flag b.offsets r.2 false, Option.map_map, Option.map_map]
    congr 1
    funext rest
    simp

theorem itemsText_append {l₁ l₂ : List Item} {i₁ i₂ : Item} {t₁ t₂ s : List Char}
    (hlast : l₁.getLast? = some i₁) (hhead : l₂.head? = some i₂)
    (h₁ : itemsText client tupLen l₁ = some t₁) (h₂ : itemsText client tupLen l₂ = some t₂)
    (hs : (returnSeparator i₁.offsets i₂.offsets (tupLen - 1) [] false).map Prod.fst = some s) :
    itemsText client tupLen (l₁ ++ l₂) = some (t₁ ++ s ++ t₂) := by
  obtain ⟨rest, rfl⟩ : ∃ rest, l₂ = i₂ :: rest := by
    cases l₂ with
    | nil => cases hhead
    | cons i rest => exact ⟨rest, by rw [Option.some.inj hhead]⟩
  induction l₁ generalizing t₁ with
  | nil => cases hlast
  | cons a items ih =>
    cases items with
    | nil =>
      obtain rfl : a = i₁ := Option.some.inj hlast
      obtain rfl : fullStr client (a.pubName, a.key) = t₁ := by simpa [itemsText, separated] using h₁
      rw [List.singleton_append, itemsText_cons_cons, hs, Option.bind_some, h₂, Option.map_some]
    | cons b items =>
      rw [itemsText_cons_cons] at h₁
      obtain ⟨s', hs', h₁⟩ := Option.bind_eq_some_iff.mp h₁
      obtain ⟨t, ht, rfl⟩ := Option.map_eq_some_iff.mp h₁
      have hrest := ih (by rwa [List.getLast?_cons_cons] at hlast) ht
      rw [List.cons_append, List.cons_append, itemsText_cons_cons, hs', Option.bind_some]
      rw [List.cons_append] at hrest
      rw [hrest, Option.map_some]
      simp

/-! ## A grid of blocks -/

theorem head_le_last {axis xs init : List ℤ} {x y : ℤ} (hsorted : axis.Pairwise (· < ·))
    (hx : axis = x :: xs) (hy : axis = init ++ [y]) : x ≤ y := by
  subst hy
  cases init with
  | nil =>
    rw [List.nil_append, List.cons.injEq] at hx
    exact le_of_eq hx.1.symm
  | cons a init =>
    obtain rfl : a = x := (List.cons.inj hx).1
    exact le_of_lt (List.rel_of_pairwise_cons hsorted (by simp))

/-- The first point of a grid is below the last one in every coordinate. -/
theorem grid_ends {axes : List (List ℤ)} (hne : ∀ axis ∈ axes, axis ≠ [])
    (hsorted : ∀ axis ∈ axes, axis.Pairwise (· < ·)) :
    ∃ p q, (grid axes).head? = some p ∧ (grid axes).getLast? = some q ∧ List.Forall₂ (· ≤ ·) p q := by
  induction axes with
  | nil => exact ⟨[], [], rfl, rfl, .nil⟩
  | cons axis axes ih =>
    obtain ⟨p, q, hp, hq, hpq⟩ := ih (fun a ha => hne a (List.mem_cons_of_mem _ ha))
      fun a ha => hsorted a (List.mem_cons_of_mem _ ha)
    obtain ⟨x, xs, hx⟩ := List.exists_cons_of_ne_nil (hne axis List.mem_cons_self)
    obtain ⟨init, y, hy⟩ := (List.eq_nil_or_concat' axis).resolve_left (hne axis List.mem_cons_self)
    refine ⟨x :: p, y :: q, ?_, ?_, .cons (head_le_last (hsorted axis List.mem_cons_self) hx hy) hpq⟩
    · rw [grid, hx, List.flatMap_cons, List.head?_append, List.head?_map, hp]
      rfl
    · rw [grid, hy, List.flatMap_append, List.getLast?_append, List.flatMap_singleton,
        List.getLast?_map, hq]
      rfl

/-- Between two rows, every later dimension starts over. -/
theorem returnSeparator_rows {row p q : List ℤ} {x y : ℤ} (hxy : x < y)
    (hpq : List.Forall₂ (· ≤ ·) p q) (hlen : tupLen = row.length + (p.length + 1)) :
    (returnSeparator (row ++ x :: q) (row ++ y :: p) (tupLen - 1) [] false).map Prod.fst =
      some (closing ['\n'] p.length ++ ',' :: List.replicate p.length '[') := by
  have hdim : tupLen - 1 = row.length + p.length := by omega
  rw [hdim]
  refine returnSeparator_eq (by simp) (by simp) hxy ?_ [] false
  intro j hj hjm
  obtain ⟨k, rfl⟩ : ∃ k, j = row.length + (k + 1) := ⟨j - row.length - 1, by omega⟩
  have hk : k < p.length := by omega
  have hkq : k < q.length := hpq.length_eq ▸ hk
  refine ⟨q[k], p[k], ?_, ?_, ?_⟩
  · rw [List.getElem?_append_right (by omega), Nat.add_sub_cancel_left, List.getElem?_cons_succ,
      List.getElem?_eq_getElem hkq]
  · rw [List.getElem?_append_right (by omega), Nat.add_sub_cancel_left, List.getElem?_cons_succ,
      List.getElem?_eq_getElem hk]
  · exact (List.forall₂_iff_get.mp hpq).2 k hk hkq

/-- The blocks of a row: those that begin with the given offsets. -/
theorem itemsText_grid {axes : List (List ℤ)} (hne : ∀ axis ∈ axes, axis ≠ [])
    (hsorted : ∀ axis ∈ axes, axis.Pairwise (· < ·)) (f : List ℤ → PlainString × PlainString)
    (row : List ℤ) (hlen : tupLen = row.length + axes.length) :
    itemsText client tupLen ((grid axes).map fun q => Item.at f (row ++ q)) =
      some (rows (fullStr client) ['\n'] axes fun q => f (row ++ q)) := by
  induction axes generalizing row with
  | nil => simp [grid, itemsText, separated, rows, Item.at]
  | cons axis axes ih =>
    have hne' : ∀ a ∈ axes, a ≠ [] := fun a ha => hne a (List.mem_cons_of_mem _ ha)
    have hsorted' : ∀ a ∈ axes, a.Pairwise (· < ·) :=
      fun a ha => hsorted a (List.mem_cons_of_mem _ ha)
    obtain ⟨p, q, hp, hq, hpq⟩ := grid_ends hne' hsorted'
    have hplen : p.length = axes.length := length_of_mem_grid (List.mem_of_head? hp)
    have hrow : ∀ x, itemsText client tupLen ((grid axes).map fun q => Item.at f (row ++ x :: q)) =
        some (rows (fullStr client) ['\n'] axes fun q => f (row ++ x :: q)) := by
      intro x
      have hx := ih hne' hsorted' (row ++ [x]) (by simp [hlen]; omega)
      simpa using hx
    have haxis : axis ≠ [] := hne axis List.mem_cons_self
    have hpair : axis.Pairwise (· < ·) := hsorted axis List.mem_cons_self
    rw [grid, List.map_flatMap, rows]
    simp only [List.map_map]
    obtain ⟨x, xs, rfl⟩ := List.exists_cons_of_ne_nil haxis
    clear hne hsorted haxis
    induction xs generalizing x with
    | nil => simpa [Function.comp_def] using hrow x
    | cons y ys ihys =>
      have hlen' : tupLen = row.length + (p.length + 1) := by rw [hplen]; exact hlen
      have hxy : x < y := List.rel_of_pairwise_cons hpair List.mem_cons_self
      have hsep := returnSeparator_rows hxy hpq hlen'
      have hlast : ((grid axes).map fun q => Item.at f (row ++ x :: q)).getLast? =
          some (Item.at f (row ++ x :: q)) := by rw [List.getLast?_map, hq, Option.map_some]
      have hhead : ((y :: ys).flatMap fun x =>
          (grid axes).map fun q => Item.at f (row ++ x :: q)).head? =
            some (Item.at f (row ++ y :: p)) := by
        rw [List.flatMap_cons, List.head?_append, List.head?_map, hp]
        rfl
      have happend := itemsText_append hlast hhead (hrow x) (ihys y hlen hpair.of_cons) hsep
      simpa [List.intercalate, hplen, Function.comp_def] using happend

theorem mylistSorted_eq {axes : List (List ℤ)} (hsorted : ∀ axis ∈ axes, axis.Pairwise (· < ·))
    {f : List ℤ → PlainString × PlainString} {listMerged : List Item}
    (hperm : listMerged.Perm ((grid axes).map (Item.at f))) :
    mylistSorted listMerged = (grid axes).map (Item.at f) := by
  have hperm' : (mylistSorted listMerged).Perm ((grid axes).map (Item.at f)) :=
    (List.mergeSort_perm _ _).trans hperm
  have hmine : (mylistSorted listMerged).Pairwise fun x y => x.offsets ≤ y.offsets := by
    refine (List.pairwise_mergeSort ?_ ?_ listMerged).imp of_decide_eq_true
    · intro x y z hxy hyz
      exact decide_eq_true (le_trans (of_decide_eq_true hxy) (of_decide_eq_true hyz))
    · intro x y
      rw [Bool.or_eq_true, decide_eq_true_eq, decide_eq_true_eq]
      exact le_total _ _
  have hgrid : ((grid axes).map (Item.at f)).Pairwise fun x y => x.offsets ≤ y.offsets := by
    rw [List.pairwise_map]
    exact (pairwise_grid hsorted).imp le_of_lt
  refine hperm'.eq_of_pairwise ?_ hmine hgrid
  intro x y hx hy hxy hyx
  obtain ⟨p, -, rfl⟩ := List.mem_map.mp (hperm'.subset hx)
  obtain ⟨q, -, rfl⟩ := List.mem_map.mp hy
  obtain rfl : p = q := le_antisymm hxy hyx
  rfl

/-! ## What is needed besides -/

theorem itemsText_head {a : Item} {items : List Item} {t : List Char}
    (h : itemsText client tupLen (a :: items) = some t) : ∃ t', t = client.chars ++ t' := by
  obtain ⟨rest, -, rfl⟩ := Option.map_eq_some_iff.mp h
  exact ⟨_, by rw [fullStr, List.append_assoc, List.append_assoc, List.append_assoc,
    List.append_assoc, List.append_assoc]⟩

/-- Offsets of fewer than three dimensions have no third one. -/
theorem itemsText_short {a b : Item} {items : List Item} (hb : b.offsets.length ≤ 2) :
    itemsText client 3 (a :: b :: items) = none := by
  have hnone : b.offsets[2]? = none := List.getElem?_eq_none hb
  rw [itemsText_cons_cons, returnSeparator, hnone]
  rfl

/-- No more brackets open than the three that the function writes. -/
theorem brackets_three {t : List Char} (h : ∃ t', t = client.chars ++ t') (rest : List Char) :
    brackets (List.replicate 3 '[' ++ t ++ rest) = 3 := by
  obtain ⟨t', rfl⟩ := h
  obtain ⟨c, cs, hcs⟩ := List.exists_cons_of_ne_nil client.nonempty
  have hc := client.word c (hcs ▸ List.mem_cons_self)
  have hbracket : c ≠ '[' := by
    rintro rfl
    exact absurd hc (by decide)
  have hblank : isBlank c = false := by
    by_contra hblank
    rw [Bool.not_eq_false] at hblank
    simp only [isBlank, Bool.or_eq_true, decide_eq_true_eq] at hblank
    rcases hblank with ((rfl | rfl) | rfl) | rfl <;> exact absurd hc (by decide)
  simp [hcs, List.replicate, brackets, hbracket, hblank]

/-- Three dimensions, and at least three blocks. -/
theorem laysOut_iff {axes : List (List ℤ)} (hne : ∀ axis ∈ axes, axis ≠ [])
    (hsorted : ∀ axis ∈ axes, axis.Pairwise (· < ·)) (f : List ℤ → PlainString × PlainString)
    {listMerged : List Item} (hperm : listMerged.Perm ((grid axes).map (Item.at f))) :
    LaysOut client listMerged (arrange axes f) ↔ axes.length = 3 ∧ 3 ≤ (grid axes).length := by
  rw [LaysOut, mylistSorted_eq hsorted hperm]
  constructor
  · rintro ⟨s, hs, ⟨t, rfl, hwrites⟩, -⟩
    have hcount : 3 ≤ (grid axes).length := by
      by_contra hlt
      rw [returnDaskBlockLayout, List.getElem?_eq_none (by rw [List.length_map]; omega)] at hs
      cases hs
    rw [returnDaskBlockLayout_eq (by rwa [List.length_map])] at hs
    obtain ⟨t', ht', heq⟩ := Option.map_eq_some_iff.mp hs
    obtain ⟨p, q, ps, hps⟩ : ∃ p q ps, grid axes = p :: q :: ps := by
      match hgrid : grid axes, hcount with
      | p :: q :: ps, _ => exact ⟨p, q, ps, rfl⟩
    have hq : q.length = axes.length := length_of_mem_grid (hps ▸ by simp)
    rw [hps, List.map_cons, List.map_cons] at ht'
    have hge : 3 ≤ axes.length := by
      by_contra hlt
      rw [itemsText_short (by show q.length ≤ 2; omega)] at ht'
      cases ht'
    have hle : axes.length ≤ 3 := by
      have hopen := opening_le_brackets hwrites [] _ rfl
      rw [opening_arrange hne, ← List.append_cancel_left heq, List.append_nil,
        brackets_three (itemsText_head ht')] at hopen
      exact hopen
    exact ⟨le_antisymm hle hge, hcount⟩
  · rintro ⟨hthree, hcount⟩
    have htext : itemsText client 3 ((grid axes).map (Item.at f)) =
        some (rows (fullStr client) ['\n'] axes f) :=
      itemsText_grid hne hsorted f [] (by simp [hthree])
    have hnewline : Blank ['\n'] := by
      intro c hc
      rw [List.mem_singleton.mp hc]
      rfl
    have hends := rows_ends (fullStr client) hnewline blank_nil hne f
    have hclosing : closing [] 3 = List.replicate 2 ']' ++ [']'] := rfl
    rw [hthree, hclosing, ← List.append_assoc] at hends
    refine ⟨_, by rw [returnDaskBlockLayout_eq (by rwa [List.length_map]), htext, Option.map_some],
      ⟨_, rfl, by simpa using hends.writes⟩, ?_⟩
    rw [leaves_arrange]
    simpa [Function.comp_def, Item.names, Item.at] using (hperm.map Item.names).symm

theorem of_all {p : Char → Prop} [DecidablePred p] {cs : List Char}
    (h : (cs.all fun c => decide (p c)) = true) : ∀ c ∈ cs, p c :=
  fun c hc => of_decide_eq_true (List.all_eq_true.mp h c hc)

/-- The name that the caller passes. -/
def clientName : Name := ⟨"client".toList, by decide, of_all (by decide)⟩

/-- Blocks under one name, with a key of a letter for each offset. -/
def named (p : List ℤ) : PlainString × PlainString :=
  (⟨"S0_I1_7".toList, of_all (by decide)⟩, ⟨p.map fun x => if x = 0 then 'a' else 'b', by
    intro c hc
    obtain ⟨x, -, rfl⟩ := List.mem_map.mp hc
    split_ifs <;> decide⟩)

theorem laysOut_four : LaysOut clientName ((grid [[0], [0, 4], [0, 4]]).map (Item.at named))
    (arrange [[0], [0, 4], [0, 4]] named) :=
  (laysOut_iff (by decide) (by decide) named (List.Perm.refl _)).mpr (by decide)

/-- Three blocks in a row: there is no third offset to compare. -/
theorem row_not_written : ¬ ∀ (axes : List (List ℤ)), 1 ≤ axes.length → (∀ axis ∈ axes, axis ≠ []) →
    (∀ axis ∈ axes, axis.Pairwise (· < ·)) →
    LaysOut clientName ((grid axes).map (Item.at named)) (arrange axes named) := by
  intro hall
  obtain ⟨s, hs, -, -⟩ := hall [[0, 4, 8]] (by decide) (by decide) (by decide)
  rw [mylistSorted_eq (by decide) (List.Perm.refl _)] at hs
  cases hs

end Damaris.DaskLayout
