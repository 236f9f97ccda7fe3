import Mathlib.Tactic

/-!
# First-in first-out channels

A family of unbounded channels indexed by an arbitrary key. Messages are only
ever appended at the end and taken from the front, so each channel delivers in
sending order; nothing relates two different channels.
-/
namespace Fifo

variable {κ μ : Type*} [DecidableEq κ]

abbrev Channels (κ μ : Type*) := κ → List μ

/-- Appends one message to channel `k`. -/
def push (ch : Channels κ μ) (k : κ) (x : μ) : Channels κ μ :=
  Function.update ch k (ch k ++ [x])

/-- Takes the oldest message of channel `k`. -/
def pop (ch : Channels κ μ) (k : κ) : Option (μ × Channels κ μ) :=
  match ch k with
  | [] => none
  | x :: xs => some (x, Function.update ch k xs)

/-- Appends messages one after another, each to its own channel. -/
def pushAll (ch : Channels κ μ) (out : List (κ × μ)) : Channels κ μ :=
  out.foldl (fun ch m => push ch m.1 m.2) ch

@[simp] theorem pushAll_nil (ch : Channels κ μ) : pushAll ch [] = ch := rfl

@[simp] theorem pushAll_cons (ch : Channels κ μ) (m : κ × μ) (out : List (κ × μ)) :
    pushAll ch (m :: out) = pushAll (push ch m.1 m.2) out := rfl

/-- What a channel holds after messages were appended to several channels. -/
theorem pushAll_apply (ch : Channels κ μ) (out : List (κ × μ)) (k : κ) :
    pushAll ch out k = ch k ++ out.filterMap fun m => if m.1 = k then some m.2 else none := by
  induction out generalizing ch with
  | nil => simp
  | cons m out ih =>
    rw [pushAll_cons, ih, push]
    by_cases h : k = m.1
    · subst h
      simp
    · simp [Function.update_of_ne h, Ne.symm h]

/-- The same message appended to each of several channels. -/
theorem pushAll_copies (ch : Channels κ μ) {keys : List κ} (hkeys : keys.Nodup) (x : μ) (k : κ) :
    pushAll ch (keys.map fun k => (k, x)) k = ch k ++ if k ∈ keys then [x] else [] := by
  rw [pushAll_apply, List.filterMap_map]
  congr 1
  induction keys with
  | nil => rfl
  | cons l keys ih =>
    obtain ⟨hl, hkeys⟩ := List.nodup_cons.mp hkeys
    by_cases h : l = k
    · subst h
      rw [List.filterMap_cons_some (b := x) (by simp), ih hkeys, if_neg hl, if_pos List.mem_cons_self]
    · rw [List.filterMap_cons_none (by simp [h]), ih hkeys]
      simp [Ne.symm h]

/-- What holds of the messages in flight and of those that are appended holds afterwards. -/
theorem forall_mem_pushAll {P : μ → Prop} {ch : Channels κ μ} {out : List (κ × μ)}
    (hch : ∀ k, ∀ x ∈ ch k, P x) (hout : ∀ m ∈ out, P m.2) (k : κ) : ∀ x ∈ pushAll ch out k, P x := by
  intro x hx
  rw [pushAll_apply, List.mem_append, List.mem_filterMap] at hx
  rcases hx with hx | ⟨m, hm, hmx⟩
  · exact hch k x hx
  · by_cases hk : m.1 = k
    · rw [if_pos hk] at hmx
      exact Option.some.inj hmx ▸ hout m hm
    · rw [if_neg hk] at hmx
      cases hmx

theorem pop_eq_some {ch ch' : Channels κ μ} {k : κ} {x : μ} :
    pop ch k = some (x, ch') ↔ ∃ xs, ch k = x :: xs ∧ ch' = Function.update ch k xs := by
  unfold pop
  cases h : ch k with
  | nil => simp
  | cons y ys =>
    simp only [Option.some.injEq, Prod.mk.injEq, List.cons.injEq]
    constructor
    · rintro ⟨rfl, rfl⟩
      exact ⟨ys, ⟨rfl, rfl⟩, rfl⟩
    · rintro ⟨xs, ⟨rfl, rfl⟩, rfl⟩
      exact ⟨rfl, rfl⟩

theorem mem_of_pop {ch ch' : Channels κ μ} {k l : κ} {x y : μ} (h : pop ch k = some (x, ch'))
    (hy : y ∈ ch' l) : y ∈ ch l := by
  obtain ⟨xs, hk, rfl⟩ := pop_eq_some.mp h
  by_cases hl : l = k
  · subst hl
    rw [Function.update_self] at hy
    rw [hk]
    exact List.mem_cons_of_mem x hy
  · rwa [Function.update_of_ne hl] at hy

/-- How many messages of a kind are in flight on channel `k`. -/
def inFlight (kind : μ → Bool) (ch : Channels κ μ) (k : κ) : ℕ := (ch k).countP kind

theorem inFlight_push (kind : μ → Bool) (ch : Channels κ μ) (k l : κ) (x : μ) :
    inFlight kind (push ch k x) l = inFlight kind ch l + if l = k ∧ kind x then 1 else 0 := by
  by_cases h : l = k
  · subst h
    simp [inFlight, push, List.countP_append, List.countP_cons]
  · simp [inFlight, push, h]

theorem inFlight_pushAll (kind : μ → Bool) (ch : Channels κ μ) (out : List (κ × μ)) (l : κ) :
    inFlight kind (pushAll ch out) l =
      inFlight kind ch l + out.countP fun m => decide (l = m.1) && kind m.2 := by
  induction out generalizing ch with
  | nil => simp
  | cons m out ih =>
    rw [pushAll_cons, ih, inFlight_push, List.countP_cons]
    simp only [Bool.and_eq_true, decide_eq_true_eq]
    omega

/-- Taking a message out is the inverse of having it in flight. -/
theorem inFlight_pop (kind : μ → Bool) {ch ch' : Channels κ μ} {k : κ} {x : μ}
    (h : pop ch k = some (x, ch')) (l : κ) :
    inFlight kind ch l = inFlight kind ch' l + if l = k ∧ kind x then 1 else 0 := by
  obtain ⟨xs, hk, rfl⟩ := pop_eq_some.mp h
  by_cases hl : l = k
  · subst hl
    simp [inFlight, hk, List.countP_cons]
  · simp [inFlight, hl]

end Fifo
