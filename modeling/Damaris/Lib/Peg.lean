import Mathlib.Tactic

/-!
# Parsing expressions

Parsers with ordered choice and greedy repetition. A parser may ask an
environment for the values of names; it keeps the names it asked for, also those
of a branch it gives up later, so that what it does can be shown to depend on
no other name. An evaluation can end in a fault, which no choice recovers from.
-/

/-- A computation that asks for names: which ones, in order, and how it ended. -/
structure Traced (ν ε α : Type) where
  asked : List ν
  outcome : Except ε α

namespace Traced

variable {ν ε V α β : Type}

instance : Monad (Traced ν ε) where
  pure a := ⟨[], .ok a⟩
  bind x f :=
    match x.outcome with
    | .ok a => ⟨x.asked ++ (f a).asked, (f a).outcome⟩
    | .error e => ⟨x.asked, .error e⟩

/-- Asks for one name, and is told `v`. -/
def ask (n : ν) (v : α) : Traced ν ε α := ⟨[n], .ok v⟩

/-- A computation that asks for nothing. -/
def lift (x : Except ε α) : Traced ν ε α := ⟨[], x⟩

variable {x : Traced ν ε α} {f : α → Traced ν ε β} {n : ν}

theorem bind_ok {a : α} (h : x.outcome = .ok a) :
    x >>= f = ⟨x.asked ++ (f a).asked, (f a).outcome⟩ := by
  simp only [bind, h]

theorem bind_error {e : ε} (h : x.outcome = .error e) : x >>= f = ⟨x.asked, .error e⟩ := by
  simp only [bind, h]

theorem outcome_bind_ok {a : α} (h : x.outcome = .ok a) : (x >>= f).outcome = (f a).outcome := by
  rw [bind_ok h]

theorem outcome_bind_error {e : ε} (h : x.outcome = .error e) : (x >>= f).outcome = .error e := by
  rw [bind_error h]

@[simp] theorem asked_pure (a : α) : (pure a : Traced ν ε α).asked = [] := rfl

@[simp] theorem outcome_pure (a : α) : (pure a : Traced ν ε α).outcome = .ok a := rfl

@[simp] theorem asked_lift (x : Except ε α) : (lift x : Traced ν ε α).asked = [] := rfl

@[simp] theorem outcome_lift (x : Except ε α) : (lift x : Traced ν ε α).outcome = x := rfl

theorem outcome_bind_eq_ok {b : β} :
    (x >>= f).outcome = .ok b ↔ ∃ a, x.outcome = .ok a ∧ (f a).outcome = .ok b := by
  cases h : x.outcome with
  | error e => simp [bind_error h]
  | ok a => simp [bind_ok h]

theorem outcome_bind_eq_error {e : ε} :
    (x >>= f).outcome = .error e ↔
      x.outcome = .error e ∨ ∃ a, x.outcome = .ok a ∧ (f a).outcome = .error e := by
  cases h : x.outcome with
  | error e => simp [bind_error h]
  | ok a => simp [bind_ok h]

theorem mem_asked_bind :
    n ∈ (x >>= f).asked ↔ n ∈ x.asked ∨ ∃ a, x.outcome = .ok a ∧ n ∈ (f a).asked := by
  cases h : x.outcome with
  | error e => simp [bind_error h]
  | ok a => simp [bind_ok h]

/-- Two continuations that agree on the result of `x` continue it in the same way. -/
theorem bind_congr {g : α → Traced ν ε β} (h : ∀ a, x.outcome = .ok a → f a = g a) :
    x >>= f = x >>= g := by
  cases hx : x.outcome with
  | error e => rw [bind_error hx, bind_error hx]
  | ok a => rw [bind_ok hx, bind_ok hx, h a hx]

/-- What the computation does is decided by the answers to what it asks. -/
def Local (x : (ν → V) → Traced ν ε α) : Prop :=
  ∀ env env', (∀ n ∈ (x env).asked, env n = env' n) → x env' = x env

theorem Local.const (x : Traced ν ε α) : Local fun _ : ν → V => x := fun _ _ _ => rfl

theorem Local.ask (n : ν) (g : V → α) :
    Local fun env : ν → V => (Traced.ask n (g (env n)) : Traced ν ε α) := by
  intro env env' h
  have hn : env n = env' n := h n (List.mem_singleton_self n)
  simp only [hn]

theorem Local.bind {x : (ν → V) → Traced ν ε α} {f : (ν → V) → α → Traced ν ε β}
    (hx : Local x) (hf : ∀ a, Local fun env => f env a) : Local fun env => x env >>= f env := by
  intro env env' h
  have hxe : x env' = x env := hx env env' fun n hn => h n (mem_asked_bind.mpr (.inl hn))
  show x env' >>= f env' = x env >>= f env
  rw [hxe]
  refine bind_congr fun a ha => hf a env env' fun n hn => ?_
  exact h n (mem_asked_bind.mpr (.inr ⟨a, ha, hn⟩))

end Traced

/-- A parser reads a prefix of its input, or does not match. -/
abbrev Peg (ν ε τ α : Type) := List τ → Traced ν ε (Option (α × List τ))

namespace Peg

variable {ν ε τ V α β : Type}

def succeed (a : α) : Peg ν ε τ α := fun s => pure (some (a, s))

def fail : Peg ν ε τ α := fun _ => pure none

/-- Reads without asking for anything. -/
def read (f : List τ → Option (α × List τ)) : Peg ν ε τ α := fun s => pure (f s)

/-- Computes a value and reads nothing. -/
def compute (x : Traced ν ε α) : Peg ν ε τ α := fun s => x >>= fun a => pure (some (a, s))

/-- `p`, then what `f` makes of its value. -/
def seq (p : Peg ν ε τ α) (f : α → Peg ν ε τ β) : Peg ν ε τ β := fun s =>
  p s >>= fun reply =>
    match reply with
    | none => pure none
    | some (a, r) => f a r

/-- `q` where `p` does not match. -/
def choice (p q : Peg ν ε τ α) : Peg ν ε τ α := fun s =>
  p s >>= fun reply =>
    match reply with
    | none => q s
    | some reply => pure (some reply)

/-- Repeats `f` on its own value while it matches, at most so many times. -/
def loopFuel (f : α → Peg ν ε τ α) : ℕ → α → Peg ν ε τ α
  | 0, a => succeed a
  | n + 1, a => choice (seq (f a) (loopFuel f n)) (succeed a)

/-- Repeats `f` on its own value until it does not match. -/
def loop (f : α → Peg ν ε τ α) (a : α) : Peg ν ε τ α := fun s => loopFuel f (s.length + 1) a s

/-- The parser a rule defines that refers to itself. -/
def fix (F : Peg ν ε τ α → Peg ν ε τ α) : Peg ν ε τ α := fun s => (F^[s.length + 1] fail) s

theorem seq_eq_ok {p : Peg ν ε τ α} {f : α → Peg ν ε τ β} {s r : List τ} {b : β} :
    (seq p f s).outcome = .ok (some (b, r)) ↔
      ∃ a m, (p s).outcome = .ok (some (a, m)) ∧ (f a m).outcome = .ok (some (b, r)) := by
  rw [seq, Traced.outcome_bind_eq_ok]
  constructor
  · rintro ⟨_ | ⟨a, m⟩, hp, hf⟩
    · simp at hf
    · exact ⟨a, m, hp, hf⟩
  · rintro ⟨a, m, hp, hf⟩
    exact ⟨some (a, m), hp, hf⟩

theorem choice_eq_ok {p q : Peg ν ε τ α} {s r : List τ} {a : α} :
    (choice p q s).outcome = .ok (some (a, r)) ↔
      (p s).outcome = .ok (some (a, r)) ∨
        (p s).outcome = .ok none ∧ (q s).outcome = .ok (some (a, r)) := by
  rw [choice, Traced.outcome_bind_eq_ok]
  constructor
  · rintro ⟨_ | reply, hp, hf⟩
    · exact .inr ⟨hp, hf⟩
    · simp only [Traced.outcome_pure, Except.ok.injEq] at hf
      exact .inl (hf ▸ hp)
  · rintro (hp | ⟨hp, hq⟩)
    · exact ⟨some (a, r), hp, rfl⟩
    · exact ⟨none, hp, hq⟩

theorem compute_eq_ok {x : Traced ν ε α} {s r : List τ} {a : α} :
    (compute x s).outcome = .ok (some (a, r)) ↔ x.outcome = .ok a ∧ r = s := by
  rw [compute, Traced.outcome_bind_eq_ok]
  constructor
  · rintro ⟨b, hx, hb⟩
    simp only [Traced.outcome_pure, Except.ok.injEq, Option.some.injEq, Prod.mk.injEq] at hb
    exact ⟨hb.1 ▸ hx, hb.2.symm⟩
  · rintro ⟨hx, rfl⟩
    exact ⟨a, hx, rfl⟩

/-! ### What parsers leave unread -/

/-- What is left over measures at most as much as the input. -/
def Shrinks {A : Type*} [Preorder A] (W : List τ → A) (p : Peg ν ε τ α) : Prop :=
  ∀ ⦃s a r⦄, (p s).outcome = .ok (some (a, r)) → W r ≤ W s

/-- A match leaves over strictly less than the input. -/
def Eats {A : Type*} [Preorder A] (W : List τ → A) (p : Peg ν ε τ α) : Prop :=
  ∀ ⦃s a r⦄, (p s).outcome = .ok (some (a, r)) → W r < W s

section Measure

variable {A : Type*} [Preorder A] {W : List τ → A}
  {p q : Peg ν ε τ α} {f : α → Peg ν ε τ β} {g : α → Peg ν ε τ α}

theorem Eats.shrinks (h : Eats W p) : Shrinks W p := fun _ _ _ hp => (h hp).le

theorem Shrinks.succeed (a : α) : Shrinks W (succeed a : Peg ν ε τ α) := by
  intro s b r h
  simp only [Peg.succeed, Traced.outcome_pure, Except.ok.injEq, Option.some.injEq,
    Prod.mk.injEq] at h
  rw [← h.2]

theorem Eats.fail : Eats W (fail : Peg ν ε τ α) := by
  intro s a r h
  simp [Peg.fail] at h

theorem Shrinks.compute (x : Traced ν ε α) : Shrinks W (compute x : Peg ν ε τ α) := by
  intro s a r h
  rw [(compute_eq_ok.mp h).2]

theorem Shrinks.seq (hp : Shrinks W p) (hf : ∀ a, Shrinks W (f a)) : Shrinks W (seq p f) := by
  intro s b r h
  obtain ⟨a, m, ha, hb⟩ := seq_eq_ok.mp h
  exact (hf a hb).trans (hp ha)

theorem Eats.seq (hp : Eats W p) (hf : ∀ a, Shrinks W (f a)) : Eats W (seq p f) := by
  intro s b r h
  obtain ⟨a, m, ha, hb⟩ := seq_eq_ok.mp h
  exact (hf a hb).trans_lt (hp ha)

theorem Shrinks.choice (hp : Shrinks W p) (hq : Shrinks W q) : Shrinks W (choice p q) := by
  intro s a r h
  rcases choice_eq_ok.mp h with h | ⟨-, h⟩
  · exact hp h
  · exact hq h

theorem Eats.choice (hp : Eats W p) (hq : Eats W q) : Eats W (choice p q) := by
  intro s a r h
  rcases choice_eq_ok.mp h with h | ⟨-, h⟩
  · exact hp h
  · exact hq h

theorem Shrinks.loop (hg : ∀ a, Shrinks W (g a)) (a : α) : Shrinks W (loop g a) := by
  have hn : ∀ n a, Shrinks W (loopFuel g n a) := by
    intro n
    induction n with
    | zero => exact .succeed
    | succ n ih => exact fun a => ((hg a).seq ih).choice (.succeed a)
  exact fun s _ _ h => hn (s.length + 1) a h

theorem iterate_fail {P : Peg ν ε τ α → Prop} {F : Peg ν ε τ α → Peg ν ε τ α}
    (hfail : P fail) (hF : ∀ p, P p → P (F p)) (n : ℕ) : P (F^[n] fail) := by
  induction n with
  | zero => exact hfail
  | succ n ih =>
    rw [Function.iterate_succ_apply']
    exact hF _ ih

end Measure

/-! ### Where the names come from -/

/-- The parser asks only for names that `W` finds in its input, and finds no
more in what it leaves over. -/
structure Within (W : List τ → Set ν) (p : Peg ν ε τ α) : Prop where
  asks : ∀ s, ∀ n ∈ (p s).asked, n ∈ W s
  shrinks : ∀ ⦃s a r⦄, (p s).outcome = .ok (some (a, r)) → W r ⊆ W s

namespace Within

variable {W : List τ → Set ν} {p q : Peg ν ε τ α} {f : α → Peg ν ε τ β} {g : α → Peg ν ε τ α}

theorem succeed (a : α) : Within W (succeed a : Peg ν ε τ α) :=
  ⟨fun _ _ hn => absurd hn List.not_mem_nil, Shrinks.succeed (W := W) a⟩

theorem fail : Within W (fail : Peg ν ε τ α) :=
  ⟨fun _ _ hn => absurd hn List.not_mem_nil, (Eats.fail (W := W)).shrinks⟩

theorem read {f : List τ → Option (α × List τ)} (h : ∀ s a r, f s = some (a, r) → W r ⊆ W s) :
    Within W (read f : Peg ν ε τ α) := by
  refine ⟨fun _ _ hn => absurd hn List.not_mem_nil, fun s a r hs => ?_⟩
  simp only [Peg.read, Traced.outcome_pure, Except.ok.injEq] at hs
  exact h s a r hs

theorem compute_lift (x : Except ε α) : Within W (compute (Traced.lift x) : Peg ν ε τ α) := by
  refine ⟨fun s n hn => ?_, Shrinks.compute (W := W) _⟩
  rw [compute, Traced.mem_asked_bind] at hn
  simp at hn

theorem seq (hp : Within W p) (hf : ∀ a, Within W (f a)) : Within W (seq p f) := by
  refine ⟨fun s n hn => ?_, Shrinks.seq (W := W) hp.shrinks fun a => (hf a).shrinks⟩
  rcases Traced.mem_asked_bind.mp hn with hn | ⟨_ | ⟨a, r⟩, hr, hn⟩
  · exact hp.asks s n hn
  · simp at hn
  · exact hp.shrinks hr ((hf a).asks r n hn)

theorem choice (hp : Within W p) (hq : Within W q) : Within W (choice p q) := by
  refine ⟨fun s n hn => ?_, Shrinks.choice (W := W) hp.shrinks hq.shrinks⟩
  rcases Traced.mem_asked_bind.mp hn with hn | ⟨_ | reply, hr, hn⟩
  · exact hp.asks s n hn
  · exact hq.asks s n hn
  · simp at hn

theorem loop (hg : ∀ a, Within W (g a)) (a : α) : Within W (loop g a) := by
  have hn : ∀ n a, Within W (loopFuel g n a) := by
    intro n
    induction n with
    | zero => exact succeed
    | succ n ih => exact fun a => ((hg a).seq ih).choice (succeed a)
  exact ⟨fun s => (hn (s.length + 1) a).asks s, Shrinks.loop (W := W) (fun a => (hg a).shrinks) a⟩

theorem fix {F : Peg ν ε τ α → Peg ν ε τ α} (hF : ∀ p, Within W p → Within W (F p)) :
    Within W (fix F) := by
  have hn := iterate_fail (P := Within W) fail hF
  exact ⟨fun s => (hn (s.length + 1)).asks s, fun s _ _ h => (hn (s.length + 1)).shrinks h⟩

end Within

/-! ### Only the names that were asked for matter -/

/-- On every input the answers to what the parser asks decide what it does. -/
def Local (p : (ν → V) → Peg ν ε τ α) : Prop := ∀ s, Traced.Local fun env => p env s

namespace Local

variable {p q : (ν → V) → Peg ν ε τ α} {f : (ν → V) → α → Peg ν ε τ β}
  {g : (ν → V) → α → Peg ν ε τ α}

theorem const (p : Peg ν ε τ α) : Local fun _ : ν → V => p := fun s => .const (p s)

theorem compute {x : (ν → V) → Traced ν ε α} (hx : Traced.Local x) :
    Local fun env => (compute (x env) : Peg ν ε τ α) :=
  fun _ => hx.bind fun _ => .const _

theorem seq (hp : Local p) (hf : ∀ a, Local fun env => f env a) :
    Local fun env => seq (p env) (f env) := by
  refine fun s => (hp s).bind fun reply => ?_
  cases reply with
  | none => exact .const _
  | some reply => exact hf reply.1 reply.2

theorem choice (hp : Local p) (hq : Local q) : Local fun env => choice (p env) (q env) := by
  refine fun s => (hp s).bind fun reply => ?_
  cases reply with
  | none => exact hq s
  | some reply => exact .const _

theorem loop (hg : ∀ a, Local fun env => g env a) (a : α) : Local fun env => loop (g env) a := by
  have hn : ∀ n a, Local fun env => loopFuel (g env) n a := by
    intro n
    induction n with
    | zero => exact fun a => const _
    | succ n ih => exact fun a => ((hg a).seq ih).choice (const _)
  exact fun s => hn (s.length + 1) a s

theorem fix {F : (ν → V) → Peg ν ε τ α → Peg ν ε τ α}
    (hF : ∀ p, Local p → Local fun env => F env (p env)) : Local fun env => fix (F env) := by
  have hn : ∀ n, Local fun env => (F env)^[n] fail := by
    intro n
    induction n with
    | zero => exact const _
    | succ n ih =>
      simp only [Function.iterate_succ_apply']
      exact hF _ ih
  exact fun s => hn (s.length + 1) s

end Local

/-! ### The fuel never runs out -/

section Fuel

variable {p p' q q' : Peg ν ε τ α} {f f' : α → Peg ν ε τ β} {g g' : α → Peg ν ε τ α}
  {F : Peg ν ε τ α → Peg ν ε τ α} {s : List τ}

theorem seq_congr (hp : p s = p' s)
    (hf : ∀ a r, (p s).outcome = .ok (some (a, r)) → f a r = f' a r) :
    seq p f s = seq p' f' s := by
  rw [seq, seq, ← hp]
  refine Traced.bind_congr fun reply hr => ?_
  cases reply with
  | none => rfl
  | some reply => exact hf reply.1 reply.2 hr

theorem choice_congr (hp : p s = p' s) (hq : q s = q' s) : choice p q s = choice p' q' s := by
  rw [choice, choice, hp, hq]

/-- The repetition asks its parser about no input that is longer. -/
theorem loop_congr (hg : ∀ a, Shrinks List.length (g a))
    (h : ∀ a, ∀ r : List τ, r.length ≤ s.length → g a r = g' a r) (a : α) :
    loop g a s = loop g' a s := by
  have hn : ∀ n a (r : List τ), r.length ≤ s.length → loopFuel g n a r = loopFuel g' n a r := by
    intro n
    induction n with
    | zero => exact fun _ _ _ => rfl
    | succ n ih =>
      intro a r hr
      refine choice_congr (seq_congr (h a r hr) fun b m hm => ?_) rfl
      exact ih b m ((hg a hm).trans hr)
  exact hn (s.length + 1) a s le_rfl

theorem loopFuel_stable (hg : ∀ a, Eats List.length (g a)) {n m : ℕ} (a : α) (hn : s.length < n)
    (hm : s.length < m) : loopFuel g n a s = loopFuel g m a s := by
  induction n generalizing m a s with
  | zero => omega
  | succ n ih =>
    obtain ⟨m, rfl⟩ : ∃ k, m = k + 1 := ⟨m - 1, by omega⟩
    refine choice_congr (seq_congr rfl fun b r hr => ?_) rfl
    have hlt : r.length < s.length := hg a hr
    exact ih b (by omega) (by omega)

/-- A repetition whose every round reads something goes on until it does not match. -/
theorem loop_eq (hg : ∀ a, Eats List.length (g a)) (a : α) :
    loop g a = choice (seq (g a) (loop g)) (succeed a) := by
  funext s
  refine choice_congr (seq_congr rfl fun b r hr => ?_) rfl
  have hlt : r.length < s.length := hg a hr
  exact loopFuel_stable hg b hlt (by omega)

/-- Before the rule uses itself it has read something. -/
structure Guarded (F : Peg ν ε τ α → Peg ν ε τ α) : Prop where
  shrinks : ∀ p, Shrinks List.length p → Shrinks List.length (F p)
  congr : ∀ p q (s : List τ), Shrinks List.length p →
    (∀ r : List τ, r.length < s.length → p r = q r) → F p s = F q s

theorem Guarded.iterate_stable (hF : Guarded F) {n m : ℕ} (hn : s.length < n)
    (hm : s.length < m) : (F^[n] fail) s = (F^[m] fail) s := by
  induction n generalizing m s with
  | zero => omega
  | succ n ih =>
    obtain ⟨m, rfl⟩ : ∃ k, m = k + 1 := ⟨m - 1, by omega⟩
    rw [Function.iterate_succ_apply', Function.iterate_succ_apply']
    refine hF.congr _ _ s (iterate_fail Eats.fail.shrinks hF.shrinks n) fun r hr => ?_
    exact ih (by omega) (by omega)

/-- The parser of a rule that refers to itself satisfies the rule. -/
theorem fix_eq (hF : Guarded F) : fix F = F (fix F) := by
  funext s
  rw [fix, Function.iterate_succ_apply']
  refine hF.congr _ _ s (iterate_fail Eats.fail.shrinks hF.shrinks _) fun r hr => ?_
  exact hF.iterate_stable hr (by omega)

end Fuel

/-! ### How a parser ends -/

/-- A match satisfies `Q`, no match means `N`, and a fault satisfies `E`. -/
def Verdict (Q : α → List τ → Prop) (N : Prop) (E : ε → Prop) :
    Except ε (Option (α × List τ)) → Prop
  | .ok (some (a, r)) => Q a r
  | .ok none => N
  | .error e => E e

def Ends (p : Peg ν ε τ α) (s : List τ) (Q : α → List τ → Prop) (N : Prop) (E : ε → Prop) : Prop :=
  Verdict Q N E (p s).outcome

namespace Ends

variable {p q : Peg ν ε τ α} {f : α → Peg ν ε τ β} {s r : List τ} {a : α} {e : ε}
  {Q P : α → List τ → Prop} {R : β → List τ → Prop} {N M : Prop} {E F : ε → Prop}

theorem of_outcome {x : Except ε (Option (α × List τ))} (h : (p s).outcome = x) :
    Ends p s Q N E ↔ Verdict Q N E x := by
  rw [Ends, h]

theorem matched (h : Ends p s Q N E) (hp : (p s).outcome = .ok (some (a, r))) : Q a r :=
  (of_outcome hp).mp h

theorem unmatched (h : Ends p s Q N E) (hp : (p s).outcome = .ok none) : N := (of_outcome hp).mp h

theorem fault (h : Ends p s Q N E) (hp : (p s).outcome = .error e) : E e := (of_outcome hp).mp h

theorem mono (h : Ends p s Q N E) (hQ : ∀ a r, Q a r → P a r) (hN : N → M)
    (hE : ∀ e, E e → F e) : Ends p s P M F := by
  cases hp : (p s).outcome with
  | error e => exact (of_outcome hp).mpr (hE e (h.fault hp))
  | ok reply =>
    cases reply with
    | none => exact (of_outcome hp).mpr (hN (h.unmatched hp))
    | some reply => exact (of_outcome hp).mpr (hQ _ _ (h.matched hp))

theorem trivial : Ends p s (fun _ _ => True) True fun _ => True := by
  cases hp : (p s).outcome with
  | error e => exact (of_outcome hp).mpr True.intro
  | ok reply => cases reply <;> exact (of_outcome hp).mpr True.intro

theorem succeed (h : Q a s) : Ends (Peg.succeed a : Peg ν ε τ α) s Q N E := h

theorem compute {x : Traced ν ε α} (ha : ∀ a, x.outcome = .ok a → Q a s)
    (he : ∀ e, x.outcome = .error e → E e) : Ends (Peg.compute x) s Q N E := by
  cases hx : x.outcome with
  | error e =>
    have hp : (Peg.compute x s).outcome = .error e := Traced.outcome_bind_error hx
    exact (of_outcome hp).mpr (he e hx)
  | ok a =>
    have hp : (Peg.compute x s).outcome = .ok (some (a, s)) := Traced.outcome_bind_ok hx
    exact (of_outcome hp).mpr (ha a hx)

theorem seq (hp : Ends p s Q N E) (hf : ∀ a r, Q a r → Ends (f a) r R N E) :
    Ends (Peg.seq p f) s R N E := by
  cases hps : (p s).outcome with
  | error e =>
    have hseq : (Peg.seq p f s).outcome = .error e := Traced.outcome_bind_error hps
    exact (of_outcome hseq).mpr (hp.fault hps)
  | ok reply =>
    cases reply with
    | none =>
      have hseq : (Peg.seq p f s).outcome = .ok none := Traced.outcome_bind_ok hps
      exact (of_outcome hseq).mpr (hp.unmatched hps)
    | some reply =>
      have hseq : (Peg.seq p f s).outcome = (f reply.1 reply.2).outcome :=
        Traced.outcome_bind_ok hps
      exact (of_outcome hseq).mpr (hf _ _ (hp.matched hps))

theorem choice (hp : Ends p s Q M E) (hq : M → Ends q s Q N E) :
    Ends (Peg.choice p q) s Q N E := by
  cases hps : (p s).outcome with
  | error e =>
    have hchoice : (Peg.choice p q s).outcome = .error e := Traced.outcome_bind_error hps
    exact (of_outcome hchoice).mpr (hp.fault hps)
  | ok reply =>
    cases reply with
    | none =>
      have hchoice : (Peg.choice p q s).outcome = (q s).outcome := Traced.outcome_bind_ok hps
      exact (of_outcome hchoice).mpr (hq (hp.unmatched hps))
    | some reply =>
      have hchoice : (Peg.choice p q s).outcome = .ok (some reply) := Traced.outcome_bind_ok hps
      exact (of_outcome hchoice).mpr (hp.matched hps)

theorem measure {A : Type*} [Preorder A] {W : List τ → A} (h : Ends p s Q N E) (hp : Shrinks W p) :
    Ends p s (fun a r => Q a r ∧ W r ≤ W s) N E := by
  cases hps : (p s).outcome with
  | error e => exact (of_outcome hps).mpr (h.fault hps)
  | ok reply =>
    cases reply with
    | none => exact (of_outcome hps).mpr (h.unmatched hps)
    | some reply => exact (of_outcome hps).mpr ⟨h.matched hps, hp hps⟩

theorem of_eq {x : Except ε (Option (α × List τ))} (h : Ends p s (fun a r => x = .ok (some (a, r)))
    (x = .ok none) fun e => x = .error e) : (p s).outcome = x := by
  cases hps : (p s).outcome with
  | error e => exact (h.fault hps).symm
  | ok reply =>
    cases reply with
    | none => exact (h.unmatched hps).symm
    | some reply => exact (h.matched hps).symm

end Ends

end Peg
