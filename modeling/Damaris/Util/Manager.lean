import Mathlib.Tactic
import Damaris.Lib.KeyedStore
import Damaris.Lib.StepSystem
import Damaris.Data.Block

/-!
# `Manager`

A manager keeps the objects of one class under unique names, and numbers them.
Its container refuses an object when one of its indices finds the key taken: by
id first, then by name; the index by both refuses nothing that these accept.
-/
namespace Damaris

/-- An object in a manager: which object it is, and what `GetName` and `GetID`
answer. -/
structure Managed (P N : Type*) where
  pointer : P
  name : N
  id : ℤ
  deriving DecidableEq

/-- `Manager<T>`. The names are unique by the type of the container. -/
structure Manager (P N : Type*) where
  objects : KeyedStore (Managed.name : Managed P N → N)
  ids : (objects.elems.map Managed.id).Nodup

namespace Manager

variable {P N : Type*}

def empty : Manager P N := ⟨KeyedStore.empty, List.nodup_nil⟩

/-- `GetNumObjects`: a `size_t` returned as an `int`. -/
def getNumObjects (m : Manager P N) : ℤ := Data.toInt m.objects.elems.length

/-- The container as its index by id sees it. -/
def byId (m : Manager P N) : KeyedStore (Managed.id : Managed P N → ℤ) := ⟨m.objects.elems, m.ids⟩

/-- `Search` by id. -/
def searchId (m : Manager P N) (id : ℤ) : Option (Managed P N) := m.byId.find id

/-- Keeps the objects that satisfy `p`. -/
def filter (p : Managed P N → Bool) (m : Manager P N) : Manager P N :=
  ⟨m.objects.filter p, m.ids.sublist (List.filter_sublist.map _)⟩

variable [DecidableEq N]

/-- `Search` by name. -/
def search (m : Manager P N) (name : N) : Option (Managed P N) := m.objects.find name

/-- The stored object that keeps `t` out of the container, which is the one that
`insert` returns an iterator to. -/
def conflict (m : Manager P N) (t : Managed P N) : Option (Managed P N) :=
  (m.searchId t.id).or (m.search t.name)

theorem conflict_eq_none {m : Manager P N} {t : Managed P N} :
    m.conflict t = none ↔ m.searchId t.id = none ∧ m.search t.name = none := by
  simp [conflict]

/-- `_objects_.insert`. -/
def insert (m : Manager P N) (t : Managed P N) : Manager P N :=
  if h : m.conflict t = none then
    ⟨(m.objects.insert t).1, by
      obtain ⟨hid, hname⟩ := conflict_eq_none.mp h
      rw [KeyedStore.elems_insert hname, List.map_append, List.nodup_append]
      refine ⟨m.ids, by simp, ?_⟩
      rintro i hi j hj rfl
      obtain ⟨x, hx, rfl⟩ := List.mem_map.mp hi
      exact KeyedStore.find_eq_none.mp hid x hx (List.mem_singleton.mp hj)⟩
  else m

theorem mem_insert {m : Manager P N} {t : Managed P N} (h : m.conflict t = none)
    (x : Managed P N) : x ∈ (m.insert t).objects ↔ x ∈ m.objects ∨ x = t := by
  rw [insert, dif_pos h]
  exact (KeyedStore.insert_of_find_none (conflict_eq_none.mp h).2).1 x

/-- `Create`, where `made` is the object that the class's `New` returns for the
name. When the insertion is refused the object in its way is returned. -/
def create (m : Manager P N) (made : Option P) (name : N) :
    Manager P N × Option (Managed P N) :=
  match made with
  | none => (m, none)
  | some p =>
    let t : Managed P N := ⟨p, name, m.getNumObjects⟩
    match m.conflict t with
    | none => (m.insert t, some t)
    | some x => (m, some x)

/-- `Add`: a refused object gets its former id back. -/
def add (m : Manager P N) (t : Option (P × N)) : Manager P N × Bool :=
  match t with
  | none => (m, false)
  | some (p, name) =>
    let t : Managed P N := ⟨p, name, m.getNumObjects⟩
    (m.insert t, (m.conflict t).isNone)

/-- `Delete` by pointer: whatever object has the name of this one is erased. -/
def delete (m : Manager P N) (t : Option N) : Manager P N :=
  match t with
  | none => m
  | some name => m.filter fun x => decide (x.name ≠ name)

/-- `Delete` by an iterator to the object with this id; the iterator has to
point to an object. -/
def deleteAt (m : Manager P N) (id : ℤ) : Option (Manager P N) :=
  if m.searchId id = none then none else some (m.filter fun x => decide (x.id ≠ id))

def deleteAll (_ : Manager P N) : Manager P N := empty

inductive Call (P N : Type*)
  | create (made : Option P) (name : N)
  | add (t : Option (P × N))
  | delete (t : Option N)
  | deleteAt (id : ℤ)
  | deleteAll

def step (m : Manager P N) : Call P N → Option (Manager P N)
  | .create made name => some (m.create made name).1
  | .add t => some (m.add t).1
  | .delete t => some (m.delete t)
  | .deleteAt id => m.deleteAt id
  | .deleteAll => some m.deleteAll

/-- No two objects share an id or a name, and both searches find the object that
carries what they look for. -/
structure Unique (m : Manager P N) : Prop where
  ids : ∀ x ∈ m.objects, ∀ y ∈ m.objects, x.id = y.id → x = y
  names : ∀ x ∈ m.objects, ∀ y ∈ m.objects, x.name = y.name → x = y
  byId : ∀ id x, m.searchId id = some x ↔ x ∈ m.objects ∧ x.id = id
  byName : ∀ name x, m.search name = some x ↔ x ∈ m.objects ∧ x.name = name

theorem unique (m : Manager P N) : m.Unique where
  ids _ hx _ hy h := List.inj_on_of_nodup_map m.ids hx hy h
  names _ hx _ hy h := KeyedStore.eq_of_key_eq hx hy h
  byId _ _ := KeyedStore.find_eq_some
  byName _ _ := KeyedStore.find_eq_some

/-- What `Create` and `Add` promise for a name that is not taken. -/
def Accepts (m : Manager P N) : Call P N → Prop
  | .create (some p) name => m.search name = none →
      ∃ t : Managed P N, (m.create (some p) name).2 = some t ∧ t.pointer = p ∧ t.name = name ∧
        t ∈ (m.create (some p) name).1.objects
  | .add (some (p, name)) => m.search name = none → (m.add (some (p, name))).2 = true
  | _ => True

/-- When an object with a new name is to be inserted, the number of objects is
nobody's id. -/
def Fresh (m : Manager P N) : Call P N → Prop
  | .create (some _) name => m.search name = none → m.searchId m.getNumObjects = none
  | .add (some (_, name)) => m.search name = none → m.searchId m.getNumObjects = none
  | _ => True

theorem accepts_create_iff {m : Manager P N} {p : P} {name : N} :
    m.Accepts (.create (some p) name) ↔ m.Fresh (.create (some p) name) := by
  refine forall_congr' fun hname => ?_
  cases hid : m.searchId m.getNumObjects with
  | none =>
    have hfree : m.conflict ⟨p, name, m.getNumObjects⟩ = none := by simp [conflict, hid, hname]
    simp only [create, hfree]
    exact iff_of_true ⟨_, rfl, rfl, rfl, (mem_insert hfree _).mpr (.inr rfl)⟩ trivial
  | some x =>
    have htaken : m.conflict ⟨p, name, m.getNumObjects⟩ = some x := by simp [conflict, hid]
    simp only [create, htaken]
    refine iff_of_false ?_ (Option.some_ne_none x)
    rintro ⟨y, hy, -, hyname, hmem⟩
    exact KeyedStore.find_eq_none.mp hname y hmem hyname

theorem accepts_iff (m : Manager P N) (a : Call P N) : m.Accepts a ↔ m.Fresh a := by
  cases a with
  | create made name =>
    cases made with
    | none => exact Iff.rfl
    | some p => exact accepts_create_iff
  | add t =>
    cases t with
    | none => exact Iff.rfl
    | some t =>
      refine forall_congr' fun hname => ?_
      simp [add, conflict_eq_none, hname]
  | _ => exact Iff.rfl

section

omit [DecidableEq N]

/-- The objects have the ids 0, 1, … in order, as an `int` holds them. -/
def Numbered (m : Manager P N) : Prop :=
  m.objects.elems.map Managed.id =
    (List.range m.objects.elems.length).map fun n : ℕ => Data.toInt n

theorem numbered_empty : (empty : Manager P N).Numbered := rfl

theorem toInt_inj {i j : ℕ} (hi : i < 2 ^ 32) (hj : j < 2 ^ 32) (h : Data.toInt i = Data.toInt j) :
    i = j := by
  have hmod : (i : ℤ) % 2 ^ 32 = (j : ℤ) % 2 ^ 32 := by
    have hi' : Data.toInt i % 2 ^ 32 = (i : ℤ) % 2 ^ 32 := Int.bmod_emod
    have hj' : Data.toInt j % 2 ^ 32 = (j : ℤ) % 2 ^ 32 := Int.bmod_emod
    rw [← hi', ← hj', h]
  omega

/-- There are no more objects than an `int` has values. -/
theorem Numbered.length_le {m : Manager P N} (h : m.Numbered) : m.objects.elems.length ≤ 2 ^ 32 := by
  by_contra hlt
  have hnodup := m.ids
  rw [h] at hnodup
  have hsame : Data.toInt ((0 : ℕ) : ℤ) = Data.toInt ((2 ^ 32 : ℕ) : ℤ) := by decide
  exact absurd (List.inj_on_of_nodup_map hnodup (List.mem_range.mpr (by omega))
    (List.mem_range.mpr (by omega)) hsame) (by decide)

theorem Numbered.searchId_eq_none {m : Manager P N} (h : m.Numbered)
    (hlen : m.objects.elems.length < 2 ^ 32) : m.searchId m.getNumObjects = none := by
  refine KeyedStore.find_eq_none.mpr fun x hx he => ?_
  have hmem : x.id ∈ m.objects.elems.map Managed.id := List.mem_map_of_mem hx
  rw [h, List.mem_map] at hmem
  obtain ⟨i, hi, hid⟩ := hmem
  rw [List.mem_range] at hi
  exact absurd (toInt_inj (hi.trans hlen) hlen (hid.trans he)) hi.ne

end

theorem conflict_mk_eq_none {m : Manager P N} {p : P} {name : N} {id : ℤ} :
    m.conflict ⟨p, name, id⟩ = none ↔ m.searchId id = none ∧ m.search name = none :=
  conflict_eq_none

theorem insert_of_taken {m : Manager P N} {t : Managed P N} (h : m.conflict t ≠ none) :
    m.insert t = m := by
  rw [insert, dif_neg h]

theorem elems_insert {m : Manager P N} {t : Managed P N} (h : m.conflict t = none) :
    (m.insert t).objects.elems = m.objects.elems ++ [t] := by
  rw [insert, dif_pos h]
  exact KeyedStore.elems_insert (conflict_eq_none.mp h).2

/-- What `Create` and `Add` leave behind. -/
def put (m : Manager P N) (p : P) (name : N) : Manager P N := m.insert ⟨p, name, m.getNumObjects⟩

theorem create_fst (m : Manager P N) (p : P) (name : N) :
    (m.create (some p) name).1 = m.put p name := by
  simp only [create, put]
  cases h : m.conflict ⟨p, name, m.getNumObjects⟩ with
  | none => rfl
  | some x => exact (insert_of_taken (by simp [h])).symm

/-- The manager changes only when nothing is in the way. -/
theorem put_cases (m : Manager P N) (p : P) (name : N) :
    (m.search name = none ∧ m.searchId m.getNumObjects = none ∧
      (m.put p name).objects.elems = m.objects.elems ++ [⟨p, name, m.getNumObjects⟩]) ∨
    m.put p name = m := by
  by_cases h : m.conflict ⟨p, name, m.getNumObjects⟩ = none
  · obtain ⟨hid, hname⟩ := conflict_mk_eq_none.mp h
    exact .inl ⟨hname, hid, elems_insert h⟩
  · unfold put
    exact .inr (insert_of_taken h)

theorem Numbered.put {m : Manager P N} (h : m.Numbered) (p : P) (name : N) :
    (m.put p name).Numbered := by
  obtain ⟨-, -, helems⟩ | hsame := m.put_cases p name
  · rw [Numbered, helems, List.map_append, List.length_append, List.length_singleton,
      List.range_succ, List.map_append, h, List.map_singleton, List.map_singleton, getNumObjects]
  · rwa [hsame]

/-- With room for one more, a new name is found afterwards, and the others as before. -/
theorem Numbered.search_put {m : Manager P N} (h : m.Numbered) (p : P) {name : N}
    (hroom : m.search name = none → m.objects.elems.length < 2 ^ 32) (n : N) :
    (m.put p name).search n =
      (m.search n).or (if n = name then some ⟨p, name, m.getNumObjects⟩ else none) := by
  cases hname : m.search name with
  | none =>
    have hfree : m.conflict ⟨p, name, m.getNumObjects⟩ = none :=
      conflict_mk_eq_none.mpr ⟨h.searchId_eq_none (hroom hname), hname⟩
    have hadded : ∀ x, x ∈ (m.put p name).objects ↔
        x ∈ m.objects ∨ x = ⟨p, name, m.getNumObjects⟩ := by
      unfold Manager.put
      exact mem_insert hfree
    rw [search, KeyedStore.find_of_added hadded hname]
    by_cases hn : n = name
    · subst hn
      simp [search] at hname ⊢
      simp [hname]
    · simp [hn, search]
  | some x =>
    obtain ⟨hnone, -⟩ | hsame := m.put_cases p name
    · exact absurd (hname.symm.trans hnone) (Option.some_ne_none x)
    · rw [hsame]
      by_cases hn : n = name
      · rw [hn, hname, Option.some_or]
      · rw [if_neg hn, Option.or_none]

/-- The object itself that `Search` finds. -/
def found (m : Manager P N) (name : N) : Option P := (m.search name).map Managed.pointer

/-- With room for all names of a set, one of them that is not there can be put. -/
theorem Numbered.found_put {m : Manager P N} (h : m.Numbered) {names : Finset N}
    (hnames : ∀ x ∈ m.objects, x.name ∈ names) (hcard : names.card ≤ 2 ^ 32) (p : P) {name : N}
    (hname : name ∈ names) (n : N) :
    (m.put p name).found n = (m.found n).or (if n = name then some p else none) := by
  have hroom : m.search name = none → m.objects.elems.length < 2 ^ 32 := by
    intro hnone
    have hnodup : (m.objects.elems.map Managed.name).toFinset.card = m.objects.elems.length := by
      rw [List.toFinset_card_of_nodup m.objects.nodup, List.length_map]
    have hsub : (m.objects.elems.map Managed.name).toFinset ⊂ names := by
      rw [Finset.ssubset_iff_of_subset]
      · refine ⟨name, hname, ?_⟩
        rw [List.mem_toFinset, List.mem_map]
        rintro ⟨x, hx, he⟩
        exact KeyedStore.find_eq_none.mp hnone x hx he
      · intro n hn
        rw [List.mem_toFinset, List.mem_map] at hn
        obtain ⟨x, hx, rfl⟩ := hn
        exact hnames x hx
    have hlt := Finset.card_lt_card hsub
    omega
  rw [found, found, h.search_put p hroom]
  cases m.search n with
  | none =>
    rw [Option.none_or, Option.map_none, Option.none_or]
    split_ifs <;> rfl
  | some x => rfl

/-! ## A sequence of creations -/

/-- Calls of `Create` one after the other, each with its name and the object made for it. -/
def createAll (m : Manager P N) (ds : List (N × Option P)) : Manager P N :=
  ds.foldl (fun m d => (m.create d.2 d.1).1) m

theorem createAll_cons (m : Manager P N) (d : N × Option P) (ds : List (N × Option P)) :
    m.createAll (d :: ds) = (m.create d.2 d.1).1.createAll ds := rfl

theorem createAll_append (m : Manager P N) (ds es : List (N × Option P)) :
    m.createAll (ds ++ es) = (m.createAll ds).createAll es := List.foldl_append

theorem create_none (m : Manager P N) (name : N) : (m.create none name).1 = m := rfl

theorem Numbered.create {m : Manager P N} (h : m.Numbered) (made : Option P) (name : N) :
    (m.create made name).1.Numbered := by
  cases made with
  | none => exact h
  | some p =>
    rw [create_fst]
    exact h.put p name

theorem Numbered.createAll {m : Manager P N} (h : m.Numbered) (ds : List (N × Option P)) :
    (m.createAll ds).Numbered := by
  induction ds generalizing m with
  | nil => exact h
  | cons d ds ih =>
    rw [createAll_cons]
    exact ih (h.create d.2 d.1)

theorem mem_put {m : Manager P N} {p : P} {name : N} {x : Managed P N}
    (hx : x ∈ (m.put p name).objects) : x ∈ m.objects ∨ x.name = name ∧ x.pointer = p := by
  obtain ⟨-, -, helems⟩ | hsame := m.put_cases p name
  · rw [KeyedStore.mem_def, helems, List.mem_append, List.mem_singleton] at hx
    exact hx.imp_right fun he => by simp [he]
  · exact .inl (hsame ▸ hx)

/-- Every object was there, or comes from one of the calls. -/
theorem mem_createAll {m : Manager P N} {ds : List (N × Option P)} {x : Managed P N}
    (hx : x ∈ (m.createAll ds).objects) : x ∈ m.objects ∨ (x.name, some x.pointer) ∈ ds := by
  induction ds generalizing m with
  | nil => exact .inl hx
  | cons d ds ih =>
    obtain hm | hds := ih (createAll_cons m d ds ▸ hx)
    · obtain ⟨name, made⟩ := d
      cases made with
      | none => exact .inl hm
      | some p =>
        rw [create_fst] at hm
        obtain hm | ⟨hname, hp⟩ := mem_put hm
        · exact .inl hm
        · exact .inr (by simp [hname, hp])
    · exact .inr (List.mem_cons_of_mem _ hds)

/-- With room for all names, what is found is what was there, or else the first object that was
made for the name. -/
theorem Numbered.found_createAll {m : Manager P N} (h : m.Numbered) {names : Finset N}
    (hnames : ∀ x ∈ m.objects, x.name ∈ names) (hcard : names.card ≤ 2 ^ 32)
    {ds : List (N × Option P)} (hds : ∀ d ∈ ds, d.1 ∈ names) (n : N) :
    (m.createAll ds).found n =
      (m.found n).or (ds.findSome? fun d => if n = d.1 then d.2 else none) := by
  induction ds generalizing m with
  | nil => exact Option.or_none.symm
  | cons d ds ih =>
    obtain ⟨name, made⟩ := d
    obtain ⟨hname, hrest⟩ := List.forall_mem_cons.mp hds
    rw [createAll_cons, List.findSome?_cons]
    cases made with
    | none =>
      rw [create_none, ih h hnames hrest, ite_self]
    | some p =>
      have hnames' : ∀ x ∈ (m.put p name).objects, x.name ∈ names := by
        intro x hx
        obtain hx | ⟨hxname, -⟩ := mem_put hx
        · exact hnames x hx
        · exact hxname ▸ hname
      dsimp only
      rw [create_fst, ih (h.put p name) hnames' hrest, h.found_put hnames hcard p hname,
        Option.or_assoc]
      split_ifs <;> rfl

theorem found_empty (n : N) : (empty : Manager P N).found n = none := rfl

/-- The names that are found are those of the objects. -/
theorem found_eq_some {m : Manager P N} {n : N} {p : P} :
    m.found n = some p ↔ ∃ x ∈ m.objects, x.name = n ∧ x.pointer = p := by
  rw [found, Option.map_eq_some_iff]
  constructor
  · rintro ⟨x, hx, hp⟩
    obtain ⟨hmem, hname⟩ := KeyedStore.find_eq_some.mp hx
    exact ⟨x, hmem, hname, hp⟩
  · rintro ⟨x, hmem, hname, hp⟩
    exact ⟨x, KeyedStore.find_eq_some.mpr ⟨hmem, hname⟩, hp⟩

/-- Distinct names that are all found number no more than an `int` has values. -/
theorem Numbered.length_le_of_found {m : Manager P N} (h : m.Numbered) {ns : List N}
    (hnodup : ns.Nodup) (hfound : ∀ n ∈ ns, (m.found n).isSome) : ns.length ≤ 2 ^ 32 := by
  refine le_trans ?_ h.length_le
  have hsub : ns ⊆ m.objects.elems.map Managed.name := by
    intro n hn
    obtain ⟨p, hp⟩ := Option.isSome_iff_exists.mp (hfound n hn)
    obtain ⟨x, hx, hname, -⟩ := found_eq_some.mp hp
    exact List.mem_map.mpr ⟨x, hx, hname⟩
  have hlength : (m.objects.elems.map Managed.name).length = m.objects.elems.length :=
    List.length_map _
  rw [← hlength]
  exact (hnodup.subperm hsub).length_le

end Manager
end Damaris
