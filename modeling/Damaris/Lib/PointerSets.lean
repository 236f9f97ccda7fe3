import Mathlib.Tactic

/-!
# Sets of pointers that mirror each other

An object at an address holds a set of pointers to objects of another kind, and these hold sets of
pointers back; `none` stands where no object lives. Two such families are linked when every pointer
is answered by one in the other direction, so that no pointer leads to an address without an object.
-/
namespace PointerSets

variable {α β : Type*}

abbrev Sets (α β : Type*) := α → Option (List β)

/-- The object at `a` lives and has a pointer to `b`. -/
def Points (f : Sets α β) (a : α) (b : β) : Prop := ∃ set, f a = some set ∧ b ∈ set

def Linked (f : Sets α β) (g : Sets β α) : Prop := ∀ a b, Points f a b ↔ Points g b a

variable {f : Sets α β} {g : Sets β α} {a : α} {b : β}

theorem Linked.symm (h : Linked f g) : Linked g f := fun b a => (h a b).symm

theorem Points.live (h : Points f a b) : (f a).isSome := by
  obtain ⟨set, hset, -⟩ := h
  rw [hset]
  rfl

theorem points_iff {set : List β} (h : f a = some set) : Points f a b ↔ b ∈ set := by
  simp [Points, h]

theorem not_points (h : f a = none) : ¬ Points f a b := by
  simp [Points, h]

theorem linked_empty : Linked (fun _ : α => none) (fun _ : β => none) := fun _ _ =>
  iff_of_false (not_points rfl) (not_points rfl)

section Update

variable [DecidableEq α]

@[simp] theorem points_update_self {v : Option (List β)} :
    Points (Function.update f a v) a b ↔ ∃ set, v = some set ∧ b ∈ set := by
  simp [Points]

@[simp] theorem points_update_of_ne {v : Option (List β)} {a' : α} (h : a' ≠ a) :
    Points (Function.update f a v) a' b ↔ Points f a' b := by
  simp [Points, h]

/-- A new object points nowhere. -/
theorem Linked.create (h : Linked f g) (ha : f a = none) :
    Linked (Function.update f a (some [])) g := by
  intro a' b
  obtain rfl | hne := eq_or_ne a' a
  · rw [← h]
    simp [not_points ha]
  · rw [points_update_of_ne hne, h]

end Update

/-- The pointer to `b` is put in the set of the object at `a`. -/
def insertAt [DecidableEq α] [DecidableEq β] (b : β) (f : Sets α β) (a : α) : Option (Sets α β) :=
  (f a).map fun set => Function.update f a (some (set.insert b))

/-- The pointer to `b` is taken out of the set of the object at `a`. -/
def eraseAt [DecidableEq α] [DecidableEq β] (b : β) (f : Sets α β) (a : α) : Option (Sets α β) :=
  (f a).map fun set => Function.update f a (some (set.filter (· ≠ b)))

/-- The same for every object of a list, one after another. -/
def eraseAll [DecidableEq α] [DecidableEq β] (b : β) (f : Sets α β) (list : List α) :
    Option (Sets α β) :=
  list.foldlM (eraseAt b) f

variable [DecidableEq α] [DecidableEq β]

theorem Linked.insert {set : List β} {set' : List α} (h : Linked f g) (ha : f a = some set)
    (hb : g b = some set') :
    Linked (Function.update f a (some (set.insert b)))
      (Function.update g b (some (set'.insert a))) := by
  intro a' b'
  have hold := h a' b'
  obtain rfl | hna := eq_or_ne a' a <;> obtain rfl | hnb := eq_or_ne b' b
  · simp
  · rw [points_iff ha] at hold
    simp [hnb, ← hold]
  · rw [points_iff hb] at hold
    simp [hna, hold]
  · simpa [hna, hnb] using hold

/-- Taking out a pointer that is not there changes nothing. -/
theorem eraseAt_of_not_points {set : List β} (ha : f a = some set) (h : ¬ Points f a b) :
    eraseAt b f a = some f := by
  rw [points_iff ha] at h
  have hset : set.filter (· ≠ b) = set :=
    List.filter_eq_self.mpr fun c hc => decide_eq_true fun hcb => h (hcb ▸ hc)
  rw [eraseAt, ha, Option.map_some, hset, ← ha, Function.update_eq_self]

theorem eraseAll_of_live {list : List α} (h : ∀ a ∈ list, (f a).isSome) :
    ∃ f', eraseAll b f list = some f' ∧
      ∀ a, f' a = (f a).map fun set => if a ∈ list then set.filter (· ≠ b) else set := by
  induction list generalizing f with
  | nil => exact ⟨f, rfl, by simp⟩
  | cons a list ih =>
    obtain ⟨set, hset⟩ := Option.isSome_iff_exists.mp (h a (by simp))
    have hstep : eraseAt b f a = some (Function.update f a (some (set.filter (· ≠ b)))) := by
      rw [eraseAt, hset, Option.map_some]
    have hlive : ∀ a' ∈ list,
        (Function.update f a (some (set.filter (· ≠ b))) a').isSome := by
      intro a' ha'
      obtain rfl | hne := eq_or_ne a' a
      · simp
      · simpa [hne] using h a' (by simp [ha'])
    obtain ⟨f', hf', hval⟩ := ih hlive
    refine ⟨f', by simpa [eraseAll, hstep] using hf', fun a' => ?_⟩
    rw [hval]
    obtain rfl | hne := eq_or_ne a' a
    · simp [hset, List.filter_filter]
    · simp [hne]

/-- An object that is destroyed takes its pointer out of every set it points back to. -/
theorem Linked.destroy {set : List α} (h : Linked f g) (hb : g b = some set) :
    ∃ f', eraseAll b f set = some f' ∧ Linked f' (Function.update g b none) := by
  have hlive : ∀ a ∈ set, (f a).isSome := fun a ha => ((h a b).mpr ((points_iff hb).mpr ha)).live
  obtain ⟨f', hf', hval⟩ := eraseAll_of_live hlive
  refine ⟨f', hf', fun a b' => ?_⟩
  have hold := h a b'
  obtain rfl | hne := eq_or_ne b' b
  · rw [points_iff hb] at hold
    by_cases hmem : a ∈ set <;> simp_all [Points]
  · rw [points_update_of_ne hne, ← hold]
    by_cases hmem : a ∈ set <;> simp [Points, hval, hmem, hne]

end PointerSets
