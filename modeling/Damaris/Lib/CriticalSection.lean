import Damaris.Lib.StepSystem

/-!
# Critical sections

Parties that share a store and a lock. A call waits for the lock, performs its operations on the store
one by one while others call and wait, and gives the lock back, or fails to. Every run of such calls
leaves what the calls leave that come one after another, in the order in which they return.
-/
set_option linter.unusedSectionVars false

namespace CriticalSection

/-- What a call does while it holds the lock. An operation changes the store, and what comes next
depends on what was there; `released` says whether the lock is given back. -/
inductive Program (σ ρ : Type*)
  | done (released : Bool) (result : ρ)
  | op (write : σ → σ) (next : σ → Program σ ρ)

variable {σ τ ρ κ P : Type*}

/-- All operations at once: the store, and how the call ends. -/
def Program.eval : Program σ ρ → σ → σ × Bool × ρ
  | .done released result, s => (s, released, result)
  | .op write next, s => (next s).eval (write s)

@[simp] theorem eval_done (released : Bool) (result : ρ) (s : σ) :
    (Program.done released result).eval s = (s, released, result) := rfl

@[simp] theorem eval_op (write : σ → σ) (next : σ → Program σ ρ) (s : σ) :
    (Program.op write next).eval s = (next s).eval (write s) := rfl

/-! ## One after another -/

variable (body : κ → Program σ ρ)

/-- The store after the calls. -/
def after (s : σ) (calls : List (P × κ)) : σ := calls.foldl (fun s x => ((body x.2).eval s).1) s

/-- What the calls return. -/
def replies : σ → List (P × κ) → List (P × κ × ρ)
  | _, [] => []
  | s, x :: calls => (x.1, x.2, ((body x.2).eval s).2.2) :: replies ((body x.2).eval s).1 calls

/-- Every one of the calls gives the lock back. -/
def Release : σ → List (P × κ) → Prop
  | _, [] => True
  | s, x :: calls => ((body x.2).eval s).2.1 = true ∧ Release ((body x.2).eval s).1 calls

@[simp] theorem after_concat (s : σ) (calls : List (P × κ)) (x : P × κ) :
    after body s (calls ++ [x]) = ((body x.2).eval (after body s calls)).1 := by
  rw [after, List.foldl_append]
  rfl

@[simp] theorem replies_concat (s : σ) (calls : List (P × κ)) (x : P × κ) :
    replies body s (calls ++ [x]) =
      replies body s calls ++ [(x.1, x.2, ((body x.2).eval (after body s calls)).2.2)] := by
  induction calls generalizing s with
  | nil => rfl
  | cons y calls ih => exact congrArg _ (ih _)

@[simp] theorem release_concat {s : σ} {calls : List (P × κ)} {x : P × κ} :
    Release body s (calls ++ [x]) ↔
      Release body s calls ∧ ((body x.2).eval (after body s calls)).2.1 = true := by
  induction calls generalizing s with
  | nil => simp [Release, after]
  | cons y calls ih =>
    rw [List.cons_append, Release, Release, ih, and_assoc]
    rfl

/-! ## Through an abstraction -/

variable {body : κ → Program σ ρ} {abs : τ → σ} {spec : τ → κ → τ × Bool × ρ}

/-- A body that does to the stores of an abstraction what its specification says. -/
def Refines (body : κ → Program σ ρ) (abs : τ → σ) (spec : τ → κ → τ × Bool × ρ) : Prop :=
  ∀ t k, (body k).eval (abs t) = (abs (spec t k).1, (spec t k).2)

/-- The specification, call after call. -/
def specAfter (spec : τ → κ → τ × Bool × ρ) (t : τ) (calls : List (P × κ)) : τ :=
  calls.foldl (fun t x => (spec t x.2).1) t

def specReplies (spec : τ → κ → τ × Bool × ρ) : τ → List (P × κ) → List (P × κ × ρ)
  | _, [] => []
  | t, x :: calls => (x.1, x.2, (spec t x.2).2.2) :: specReplies spec (spec t x.2).1 calls

def SpecRelease (spec : τ → κ → τ × Bool × ρ) : τ → List (P × κ) → Prop
  | _, [] => True
  | t, x :: calls => (spec t x.2).2.1 = true ∧ SpecRelease spec (spec t x.2).1 calls

@[simp] theorem specAfter_concat (t : τ) (calls : List (P × κ)) (x : P × κ) :
    specAfter spec t (calls ++ [x]) = (spec (specAfter spec t calls) x.2).1 := by
  rw [specAfter, List.foldl_append]
  rfl

theorem Refines.sequential (h : Refines body abs spec) (t : τ) (calls : List (P × κ)) :
    after body (abs t) calls = abs (specAfter spec t calls) ∧
      replies body (abs t) calls = specReplies spec t calls ∧
        (Release body (abs t) calls ↔ SpecRelease spec t calls) := by
  induction calls generalizing t with
  | nil => exact ⟨rfl, rfl, Iff.rfl⟩
  | cons x calls ih =>
    obtain ⟨hafter, hreplies, hrelease⟩ := ih (spec t x.2).1
    rw [after, List.foldl_cons, replies, Release, h t x.2]
    exact ⟨hafter, congrArg _ hreplies, and_congr Iff.rfl hrelease⟩

/-! ## Interleaved -/

/-- What a party is doing. -/
inductive Phase (σ ρ κ : Type*)
  | idle
  | waiting (call : κ)
  | inside (call : κ) (rest : Program σ ρ)

/-- `returned` is history: the calls that have had the lock and have returned. -/
structure State (P σ ρ κ : Type*) where
  store : σ
  holder : Option P
  phase : P → Phase σ ρ κ
  returned : List (P × κ × ρ)

inductive Action (P κ : Type*)
  | call (p : P) (k : κ)
  | acquire (p : P)
  | timeout (p : P)
  | advance (p : P)

variable [DecidableEq P]

namespace State

def initial (s : σ) : State P σ ρ κ := ⟨s, none, fun _ => .idle, []⟩

def setPhase (s : State P σ ρ κ) (p : P) (x : Phase σ ρ κ) : State P σ ρ κ :=
  { s with phase := Function.update s.phase p x }

def step (body : κ → Program σ ρ) (s : State P σ ρ κ) : Action P κ → Option (State P σ ρ κ)
  | .call p k =>
    match s.phase p with
    | .idle => some (s.setPhase p (.waiting k))
    | _ => none
  | .acquire p =>
    match s.holder, s.phase p with
    | none, .waiting k => some { s.setPhase p (.inside k (body k)) with holder := some p }
    | _, _ => none
  | .timeout p =>
    match s.phase p with
    | .waiting _ => some (s.setPhase p .idle)
    | _ => none
  | .advance p =>
    match s.phase p with
    | .inside k (.done released result) =>
      some { s.setPhase p .idle with
        holder := if released then none else s.holder
        returned := s.returned ++ [(p, k, result)] }
    | .inside k (.op write next) =>
      some { s.setPhase p (.inside k (next s.store)) with store := write s.store }
    | _ => none

end State

theorem setPhase_self (s : State P σ ρ κ) (p : P) (x : Phase σ ρ κ) : (s.setPhase p x).phase p = x :=
  Function.update_self ..

theorem setPhase_of_ne (s : State P σ ρ κ) {p q : P} (h : q ≠ p) (x : Phase σ ρ κ) :
    (s.setPhase p x).phase q = s.phase q :=
  Function.update_of_ne h ..

theorem inside_setPhase {s : State P σ ρ κ} {p q : P} {x : Phase σ ρ κ} {k : κ} {rest : Program σ ρ}
    (h : (s.setPhase p x).phase q = .inside k rest) :
    q = p ∧ x = .inside k rest ∨ q ≠ p ∧ s.phase q = .inside k rest := by
  by_cases hqp : q = p
  · subst hqp
    exact .inl ⟨rfl, (setPhase_self s q x).symm.trans h⟩
  · exact .inr ⟨hqp, (setPhase_of_ne s hqp x).symm.trans h⟩

/-! ## Every run is sequential -/

variable {s₀ : σ} {s s' : State P σ ρ κ} {calls : List (P × κ)}

/-- The invariant. A call that has the lock will leave, with what is left of it, what all of it leaves
after the calls that have returned. -/
structure Sequential (body : κ → Program σ ρ) (s₀ : σ) (s : State P σ ρ κ) (calls : List (P × κ)) :
    Prop where
  returned : s.returned = replies body s₀ calls
  alone : ∀ p k rest, s.phase p = .inside k rest → s.holder = some p
  free : s.holder = none → Release body s₀ calls ∧ s.store = after body s₀ calls
  inside : ∀ p k rest, s.phase p = .inside k rest → Release body s₀ calls ∧
    rest.eval s.store = (body k).eval (after body s₀ calls)
  stuck : ∀ p, s.holder = some p → (∀ k rest, s.phase p ≠ .inside k rest) →
    ¬ Release body s₀ calls ∧ s.store = after body s₀ calls

theorem sequential_initial (body : κ → Program σ ρ) (s₀ : σ) :
    Sequential body s₀ (.initial s₀ : State P σ ρ κ) [] :=
  ⟨rfl, nofun, fun _ => ⟨trivial, rfl⟩, nofun, nofun⟩

/-- A party that is outside may go to another phase outside. -/
theorem Sequential.outside (h : Sequential body s₀ s calls) {p : P} {x : Phase σ ρ κ}
    (hp : ∀ k rest, s.phase p ≠ .inside k rest) (hx : ∀ k rest, x ≠ .inside k rest) :
    Sequential body s₀ (s.setPhase p x) calls := by
  have hsame : ∀ q k rest, (s.setPhase p x).phase q = .inside k rest → s.phase q = .inside k rest := by
    intro q k rest hq
    rcases inside_setPhase hq with ⟨-, hx'⟩ | ⟨-, hq'⟩
    · exact absurd hx' (hx k rest)
    · exact hq'
  refine ⟨h.returned, fun q k rest hq => h.alone q k rest (hsame q k rest hq), h.free,
    fun q k rest hq => h.inside q k rest (hsame q k rest hq), fun q hq hout => ?_⟩
  refine h.stuck q hq fun k rest hin => ?_
  by_cases hqp : q = p
  · subst hqp
    exact hp k rest hin
  · exact hout k rest ((setPhase_of_ne s hqp x).trans hin)

/-- The party that holds the lock is inside, with nobody else there. -/
theorem Sequential.enter (h : Sequential body s₀ s calls) {p : P} {k : κ} {rest : Program σ ρ} {store : σ}
    (hout : ∀ q, q ≠ p → ∀ k rest, s.phase q ≠ .inside k rest) (hrelease : Release body s₀ calls)
    (heval : rest.eval store = (body k).eval (after body s₀ calls)) :
    Sequential body s₀ { s.setPhase p (.inside k rest) with holder := some p, store := store } calls := by
  have honly : ∀ q k' rest', (s.setPhase p (.inside k rest)).phase q = .inside k' rest' →
      q = p ∧ k' = k ∧ rest' = rest := by
    intro q k' rest' hq
    rcases inside_setPhase hq with ⟨hqp, hin⟩ | ⟨hqp, hq'⟩
    · obtain ⟨rfl, rfl⟩ := Phase.inside.inj hin
      exact ⟨hqp, rfl, rfl⟩
    · exact absurd hq' (hout q hqp k' rest')
  refine ⟨h.returned, fun q k' rest' hq => congrArg some (honly q k' rest' hq).1.symm, nofun,
    fun q k' rest' hq => ?_, fun q hq hnot => ?_⟩
  · obtain ⟨-, rfl, rfl⟩ := honly q k' rest' hq
    exact ⟨hrelease, heval⟩
  · obtain rfl : p = q := Option.some.inj hq
    exact absurd (setPhase_self s p _) (hnot k rest)

theorem Sequential.others (h : Sequential body s₀ s calls) {p : P} (hholder : s.holder = some p) :
    ∀ q, q ≠ p → ∀ k rest, s.phase q ≠ .inside k rest := fun q hqp k rest hq =>
  hqp (Option.some.inj ((h.alone q k rest hq).symm.trans hholder))

theorem Sequential.finish (h : Sequential body s₀ s calls) {p : P} {k : κ} {released : Bool}
    {result : ρ} (hp : s.phase p = .inside k (.done released result)) :
    Sequential body s₀ { s.setPhase p .idle with
      holder := if released then none else s.holder
      returned := s.returned ++ [(p, k, result)] } (calls ++ [(p, k)]) := by
  have hholder := h.alone p k _ hp
  obtain ⟨hrelease, heval⟩ := h.inside p k _ hp
  have houtside : ∀ q k' rest, (s.setPhase p .idle).phase q ≠ .inside k' rest := by
    intro q k' rest hq
    rcases inside_setPhase hq with ⟨-, hidle⟩ | ⟨hqp, hq'⟩
    · cases hidle
    · exact h.others hholder q hqp k' rest hq'
  rw [eval_done] at heval
  have hafter : s.store = after body s₀ (calls ++ [(p, k)]) := by rw [after_concat, ← heval]
  refine ⟨?_, fun q k' rest hq => absurd hq (houtside q k' rest), fun hnone => ⟨?_, hafter⟩,
    fun q k' rest hq => absurd hq (houtside q k' rest), fun q hq _ => ⟨?_, hafter⟩⟩
  · rw [replies_concat, ← heval, h.returned]
  · rw [release_concat, ← heval]
    refine ⟨hrelease, ?_⟩
    by_contra hkept
    simp only [if_neg hkept, hholder] at hnone
    exact absurd hnone (Option.some_ne_none p)
  · rw [release_concat, ← heval]
    rintro ⟨-, rfl⟩
    exact absurd hq (Option.some_ne_none q).symm

theorem Sequential.step (h : Sequential body s₀ s calls) {a : Action P κ}
    (hs : s.step body a = some s') :
    ∃ calls', Sequential body s₀ s' (calls ++ calls') := by
  cases a with
  | call p k =>
    cases hp : s.phase p with
    | idle =>
      simp only [State.step, hp] at hs
      obtain rfl := Option.some.inj hs
      exact ⟨[], by simpa using h.outside (by simp [hp]) (by simp)⟩
    | _ => simp [State.step, hp] at hs
  | acquire p =>
    cases hholder : s.holder with
    | some q => simp [State.step, hholder] at hs
    | none =>
      cases hp : s.phase p with
      | waiting k =>
        simp only [State.step, hholder, hp] at hs
        obtain rfl := Option.some.inj hs
        obtain ⟨hrelease, hstore⟩ := h.free hholder
        refine ⟨[], ?_⟩
        rw [List.append_nil]
        refine h.enter (fun q _ k' rest hq => ?_) hrelease (congrArg _ hstore)
        exact absurd (hholder.symm.trans (h.alone q k' rest hq)) (Option.some_ne_none q).symm
      | _ => simp [State.step, hholder, hp] at hs
  | timeout p =>
    cases hp : s.phase p with
    | waiting k =>
      simp only [State.step, hp] at hs
      obtain rfl := Option.some.inj hs
      exact ⟨[], by simpa using h.outside (by simp [hp]) (by simp)⟩
    | _ => simp [State.step, hp] at hs
  | advance p =>
    cases hp : s.phase p with
    | inside k rest =>
      cases rest with
      | done released result =>
        simp only [State.step, hp] at hs
        obtain rfl := Option.some.inj hs
        exact ⟨[(p, k)], h.finish hp⟩
      | op write next =>
        simp only [State.step, hp] at hs
        obtain rfl := Option.some.inj hs
        have hholder := h.alone p k _ hp
        obtain ⟨hrelease, heval⟩ := h.inside p k _ hp
        have hkeep : Sequential body s₀ { s.setPhase p (.inside k (next s.store)) with
            holder := some p
            store := write s.store } calls := h.enter (h.others hholder) hrelease heval
        rw [← hholder] at hkeep
        exact ⟨[], by rwa [List.append_nil]⟩
    | _ => simp [State.step, hp] at hs

/-- The lock is lost when a call has not given it back, and then only. -/
theorem Sequential.lost_iff (h : Sequential body s₀ s calls) :
    (∃ p, s.holder = some p ∧ ∀ k rest, s.phase p ≠ .inside k rest) ↔ ¬ Release body s₀ calls := by
  constructor
  · intro hlost
    obtain ⟨p, hholder, hout⟩ := hlost
    exact (h.stuck p hholder hout).1
  · intro hkept
    cases hholder : s.holder with
    | none => exact absurd (h.free hholder).1 hkept
    | some p => exact ⟨p, rfl, fun k rest hp => hkept (h.inside p k rest hp).1⟩

/-- The calls of any run are those of a sequential one, in the order in which they return. -/
theorem sequential_of_run (body : κ → Program σ ρ) (s₀ : σ) {as : List (Action P κ)}
    (hr : StepSystem.run (State.step body) (.initial s₀) as = some s) :
    ∃ calls, Sequential body s₀ s calls := by
  refine StepSystem.run_invariant (I := fun s => ∃ calls, Sequential body s₀ s calls) ?_
    ⟨[], sequential_initial body s₀⟩ hr
  intro s a s' h hs
  obtain ⟨calls, h⟩ := h
  obtain ⟨calls', h'⟩ := h.step hs
  exact ⟨_, h'⟩

end CriticalSection
