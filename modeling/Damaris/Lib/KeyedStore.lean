import Mathlib.Tactic

/-!
# Containers with a unique key

A finite container that holds at most one element for each value of a key, as
an ordered unique index does: an insertion is refused when the key is taken.
The uniqueness is a field, so every operation has to keep it.
-/

/-- At most one element for each key. -/
structure KeyedStore {α κ : Type*} (key : α → κ) where
  elems : List α
  nodup : (elems.map key).Nodup

namespace KeyedStore

variable {α κ : Type*} {key : α → κ}

instance : Membership α (KeyedStore key) := ⟨fun s x => x ∈ s.elems⟩

theorem mem_def {s : KeyedStore key} {x : α} : x ∈ s ↔ x ∈ s.elems := Iff.rfl

def empty : KeyedStore key := ⟨[], by simp⟩

@[simp] theorem notMem_empty (x : α) : x ∉ (empty : KeyedStore key) := by
  simp [mem_def, empty]

theorem eq_of_key_eq {s : KeyedStore key} {x y : α} (hx : x ∈ s) (hy : y ∈ s)
    (h : key x = key y) : x = y :=
  List.inj_on_of_nodup_map s.nodup hx hy h

/-- Keeps the elements that satisfy `p`. -/
def filter (p : α → Bool) (s : KeyedStore key) : KeyedStore key :=
  ⟨s.elems.filter p, s.nodup.sublist (List.filter_sublist.map key)⟩

@[simp] theorem mem_filter {p : α → Bool} {s : KeyedStore key} {x : α} :
    x ∈ s.filter p ↔ x ∈ s ∧ p x = true :=
  List.mem_filter

theorem filter_congr {p q : α → Bool} {s : KeyedStore key} (h : ∀ x ∈ s, p x = q x) :
    s.filter p = s.filter q := by
  have helems : s.elems.filter p = s.elems.filter q := List.filter_congr h
  simp only [filter, helems]

variable [DecidableEq κ]

/-- A container has no more elements than there are keys for them. -/
theorem length_le_card {s : KeyedStore key} {t : Finset κ} (h : ∀ x ∈ s, key x ∈ t) :
    s.elems.length ≤ t.card := by
  rw [← List.length_map key, ← List.toFinset_card_of_nodup s.nodup]
  refine Finset.card_le_card fun k hk => ?_
  obtain ⟨x, hx, rfl⟩ := List.mem_map.mp (List.mem_toFinset.mp hk)
  exact h x hx

/-- The element with the given key. -/
def find (s : KeyedStore key) (k : κ) : Option α := s.elems.find? fun x => decide (key x = k)

theorem find_eq_some {s : KeyedStore key} {k : κ} {x : α} :
    s.find k = some x ↔ x ∈ s ∧ key x = k := by
  constructor
  · intro h
    exact ⟨List.mem_of_find?_eq_some h, of_decide_eq_true (List.find?_some h :)⟩
  · rintro ⟨hx, rfl⟩
    have hsome : (s.find (key x)).isSome := by
      rw [find, List.find?_isSome]
      exact ⟨x, hx, by simp⟩
    obtain ⟨y, hy⟩ := Option.isSome_iff_exists.mp hsome
    have hmem : y ∈ s := List.mem_of_find?_eq_some hy
    have hkey : key y = key x := of_decide_eq_true (List.find?_some hy :)
    rw [hy, eq_of_key_eq hmem hx hkey]

theorem find_eq_none {s : KeyedStore key} {k : κ} :
    s.find k = none ↔ ∀ x ∈ s, key x ≠ k := by
  simp [find, mem_def]

theorem find_filter (p : α → Bool) (s : KeyedStore key) (k : κ) :
    (s.filter p).find k = (s.find k).filter p := by
  ext x
  rw [find_eq_some, mem_filter, Option.filter_eq_some_iff, find_eq_some]
  tauto

/-- What the look-ups of a container are that has one element more. -/
theorem find_of_added {s s' : KeyedStore key} {x : α} (hadded : ∀ y, y ∈ s' ↔ y ∈ s ∨ y = x)
    (hfree : s.find (key x) = none) (k : κ) :
    s'.find k = if k = key x then some x else s.find k := by
  by_cases hk : k = key x
  · rw [if_pos hk, find_eq_some, hadded]
    exact ⟨.inr rfl, hk.symm⟩
  · rw [if_neg hk]
    ext y
    rw [find_eq_some, find_eq_some, hadded]
    refine and_congr_left fun hy => or_iff_left ?_
    rintro rfl
    exact hk hy.symm

theorem length_of_added {s s' : KeyedStore key} {x : α} (hadded : ∀ y, y ∈ s' ↔ y ∈ s ∨ y = x)
    (hfree : s.find (key x) = none) : s'.elems.length = s.elems.length + 1 := by
  have hnodup : (x :: s.elems).Nodup :=
    List.nodup_cons.mpr ⟨fun hx => find_eq_none.mp hfree x hx rfl, s.nodup.of_map⟩
  have hperm : s'.elems.Perm (x :: s.elems) := by
    refine (List.perm_ext_iff_of_nodup s'.nodup.of_map hnodup).mpr fun y => ?_
    rw [List.mem_cons, or_comm]
    exact hadded y
  exact hperm.length_eq

/-- Inserts the element unless its key is taken; the flag says whether it was inserted. -/
def insert (x : α) (s : KeyedStore key) : KeyedStore key × Bool :=
  if h : s.find (key x) = none then
    (⟨s.elems ++ [x], by
      rw [List.map_append, List.nodup_append]
      refine ⟨s.nodup, by simp, ?_⟩
      rintro k hk l hl rfl
      obtain ⟨y, hy, rfl⟩ := List.mem_map.mp hk
      exact find_eq_none.mp h y hy (List.mem_singleton.mp hl)⟩, true)
  else (s, false)

theorem insert_of_find_none {x : α} {s : KeyedStore key} (h : s.find (key x) = none) :
    (∀ y, y ∈ (s.insert x).1 ↔ y ∈ s ∨ y = x) ∧ (s.insert x).2 = true := by
  rw [insert, dif_pos h]
  exact ⟨fun y => by simp [mem_def], rfl⟩

theorem elems_insert {x : α} {s : KeyedStore key} (h : s.find (key x) = none) :
    (s.insert x).1.elems = s.elems ++ [x] := by
  rw [insert, dif_pos h]

theorem insert_of_find_some {x : α} {s : KeyedStore key} (h : s.find (key x) ≠ none) :
    s.insert x = (s, false) := by
  rw [insert, dif_neg h]

theorem insert_refused {x : α} {s : KeyedStore key} (h : (s.insert x).2 = false) :
    (s.insert x).1 = s := by
  by_cases hf : s.find (key x) = none
  · rw [(insert_of_find_none hf).2] at h
    exact absurd h (by decide)
  · rw [insert_of_find_some hf]

/-- Writes through a pointer to a stored element: the element with the key of
`x`, if there is one, becomes `x`. -/
def replace (x : α) (s : KeyedStore key) : KeyedStore key :=
  ⟨s.elems.map fun y => if key y = key x then x else y, by
    have hkeys : (s.elems.map fun y => if key y = key x then x else y).map key =
        s.elems.map key := by
      rw [List.map_map]
      refine List.map_congr_left fun y _ => ?_
      simp only [Function.comp_apply]
      split
      · next h => exact h.symm
      · rfl
    rw [hkeys]
    exact s.nodup⟩

theorem mem_replace {x y : α} {s : KeyedStore key} :
    y ∈ s.replace x ↔ (y = x ∧ ∃ z ∈ s, key z = key x) ∨ (y ∈ s ∧ key y ≠ key x) := by
  simp only [mem_def, replace, List.mem_map]
  constructor
  · rintro ⟨z, hz, rfl⟩
    by_cases hk : key z = key x
    · exact .inl ⟨if_pos hk, z, hz, hk⟩
    · rw [if_neg hk]
      exact .inr ⟨hz, hk⟩
  · rintro (⟨rfl, z, hz, hk⟩ | ⟨hy, hk⟩)
    · exact ⟨z, hz, if_pos hk⟩
    · exact ⟨y, hy, if_neg hk⟩

theorem find_replace (x : α) (s : KeyedStore key) (k : κ) :
    (s.replace x).find k = if k = key x then (s.find k).map fun _ => x else s.find k := by
  by_cases hk : k = key x
  · rw [if_pos hk]
    ext y
    rw [find_eq_some, mem_replace, Option.map_eq_some_iff, hk]
    constructor
    · rintro ⟨⟨rfl, z, hz, hzk⟩ | ⟨-, hne⟩, hy⟩
      · exact ⟨z, find_eq_some.mpr ⟨hz, hzk⟩, rfl⟩
      · exact absurd hy hne
    · rintro ⟨z, hz, rfl⟩
      obtain ⟨hz, hzk⟩ := find_eq_some.mp hz
      exact ⟨.inl ⟨rfl, z, hz, hzk⟩, rfl⟩
  · rw [if_neg hk]
    ext y
    rw [find_eq_some, find_eq_some, mem_replace]
    constructor
    · rintro ⟨⟨rfl, -⟩ | ⟨hy, -⟩, hyk⟩
      · exact absurd hyk.symm hk
      · exact ⟨hy, hyk⟩
    · rintro ⟨hy, rfl⟩
      exact ⟨.inr ⟨hy, hk⟩, rfl⟩

/-- Writing through the pointer to an element that was just inserted is to have
inserted the new value. -/
theorem replace_insert {x y : α} {s : KeyedStore key} (h : s.find (key x) = none)
    (hkey : key y = key x) : (s.insert x).1.replace y = (s.insert y).1 := by
  have hkeep : s.elems.map (fun z => if key z = key y then y else z) = s.elems := by
    refine (List.map_congr_left fun z hz => ?_).trans (List.map_id _)
    exact if_neg fun hz' => find_eq_none.mp h z hz (hz'.trans hkey)
  have helems : ((s.insert x).1.replace y).elems = (s.insert y).1.elems := by
    have hreplace : ((s.insert x).1.replace y).elems =
        (s.insert x).1.elems.map fun z => if key z = key y then y else z := rfl
    rw [hreplace, elems_insert h, elems_insert (by rw [hkey]; exact h), List.map_append, hkeep]
    simp [hkey]
  generalize (s.insert x).1.replace y = t at helems
  generalize (s.insert y).1 = u at helems
  obtain ⟨_, _⟩ := t
  obtain ⟨_, _⟩ := u
  obtain rfl := helems
  rfl

/-- Removes the element with the given key. -/
def erase (k : κ) (s : KeyedStore key) : KeyedStore key := s.filter fun x => decide (key x ≠ k)

@[simp] theorem mem_erase {k : κ} {s : KeyedStore key} {x : α} :
    x ∈ s.erase k ↔ x ∈ s ∧ key x ≠ k := by
  simp [erase]

/-! ## Ordered indices -/

section

variable {β : Type*} [LinearOrder β]

omit [DecidableEq κ]

/-- The elements as an index that is not unique has them: by `f`, and those with the same `f` as they
came. -/
def index (f : α → β) (s : KeyedStore key) : List α :=
  s.elems.mergeSort fun x y => decide (f x ≤ f y)

theorem index_perm (f : α → β) (s : KeyedStore key) : (s.index f).Perm s.elems :=
  List.mergeSort_perm _ _

theorem mem_index {f : α → β} {s : KeyedStore key} {x : α} : x ∈ s.index f ↔ x ∈ s :=
  (s.index_perm f).mem_iff

theorem le_trans_index (f : α → β) (x y z : α) (hxy : decide (f x ≤ f y) = true)
    (hyz : decide (f y ≤ f z) = true) : decide (f x ≤ f z) = true :=
  decide_eq_true (le_trans (of_decide_eq_true hxy) (of_decide_eq_true hyz))

theorem le_total_index (f : α → β) (x y : α) : (decide (f x ≤ f y) || decide (f y ≤ f x)) = true := by
  rw [Bool.or_eq_true, decide_eq_true_eq, decide_eq_true_eq]
  exact le_total _ _

theorem pairwise_index (f : α → β) (s : KeyedStore key) :
    (s.index f).Pairwise fun x y => f x ≤ f y :=
  (List.pairwise_mergeSort (le_trans_index f) (le_total_index f) s.elems).imp of_decide_eq_true

/-- Elements with the same `f` keep their order. -/
theorem filter_index (f : α → β) (s : KeyedStore key) (k : β) :
    (s.index f).filter (fun x => decide (f x = k)) = s.elems.filter fun x => decide (f x = k) := by
  have hpair : (s.elems.filter fun x => decide (f x = k)).Pairwise
      fun x y => decide (f x ≤ f y) = true := by
    refine List.pairwise_of_forall_mem_list fun x hx y hy => decide_eq_true ?_
    have hx' : f x = k := of_decide_eq_true (List.mem_filter.mp hx).2
    have hy' : f y = k := of_decide_eq_true (List.mem_filter.mp hy).2
    rw [hx', hy']
  have hsub := (List.sublist_mergeSort (le_trans_index f) (le_total_index f) hpair
    List.filter_sublist).filter fun x => decide (f x = k)
  rw [List.filter_filter] at hsub
  simp only [Bool.and_self] at hsub
  exact (hsub.eq_of_length ((s.index_perm f).filter _).length_eq.symm).symm

/-- The index begins with the first of the lowest elements. -/
theorem head?_index {f : α → β} {s : KeyedStore key} {x : α} (h : (s.index f).head? = some x) :
    (∀ y ∈ s, f x ≤ f y) ∧ s.elems.find? (fun y => decide (f y = f x)) = some x := by
  obtain ⟨xs, hxs⟩ : ∃ xs, s.index f = x :: xs := by
    cases hindex : s.index f with
    | nil => rw [hindex] at h; cases h
    | cons y ys =>
      rw [hindex] at h
      exact ⟨ys, by rw [Option.some.inj h]⟩
  constructor
  · intro y hy
    have hmem := (mem_index (f := f)).mpr hy
    rw [hxs] at hmem
    rcases List.mem_cons.mp hmem with rfl | hmem
    · exact le_rfl
    · have hpair := s.pairwise_index f
      rw [hxs] at hpair
      exact List.rel_of_pairwise_cons hpair hmem
  · rw [← List.head?_filter, ← filter_index, hxs]
    simp

/-- It ends with the last of the greatest elements. -/
theorem getLast?_index {f : α → β} {s : KeyedStore key} {x : α} (h : (s.index f).getLast? = some x) :
    (∀ y ∈ s, f y ≤ f x) ∧ s.elems.reverse.find? (fun y => decide (f y = f x)) = some x := by
  obtain ⟨xs, hxs⟩ := List.getLast?_eq_some_iff.mp h
  constructor
  · intro y hy
    have hmem := (mem_index (f := f)).mpr hy
    rw [hxs] at hmem
    rcases List.mem_append.mp hmem with hmem | hmem
    · have hpair := s.pairwise_index f
      rw [hxs] at hpair
      exact (List.pairwise_append.mp hpair).2.2 y hmem x (List.mem_singleton.mpr rfl)
    · rw [List.mem_singleton.mp hmem]
  · rw [← List.head?_filter, List.filter_reverse, ← filter_index, hxs, List.filter_append,
      List.reverse_append]
    simp

end

end KeyedStore
