import Damaris.Lib.StepSystem

/-!
# Parties with collective operations

Parties that run side by side on something shared, and meet in collective operations: a gather, which
hands what each brings to the first of them, and a barrier. Where the operations between two meetings
are independent, one order of them stands for all: whatever the interleaving, as many steps lead to
the same end, and no party waits for ever.
-/
namespace Supersteps

/-- What a party still has to do. The first party gets what is gathered. -/
inductive Program (σ γ ρ : Type*)
  | done (result : ρ)
  | op (write : σ → σ) (next : σ → Program σ γ ρ)
  | gather (x : γ) (next : Option (List γ) → Program σ γ ρ)
  | barrier (next : Program σ γ ρ)

variable {n : ℕ} {σ γ ρ V : Type*}

namespace Program

/-- The next thing to do is no operation of the party's own. -/
def Quiet : Program σ γ ρ → Prop
  | op _ _ => False
  | _ => True

def atGather : Program σ γ ρ → Option (γ × (Option (List γ) → Program σ γ ρ))
  | gather x next => some (x, next)
  | _ => none

def atBarrier : Program σ γ ρ → Option (Program σ γ ρ)
  | barrier next => some next
  | _ => none

theorem atGather_eq_some {p : Program σ γ ρ} {x : γ × (Option (List γ) → Program σ γ ρ)} :
    p.atGather = some x ↔ p = gather x.1 x.2 := by
  cases p <;> simp [atGather, Prod.ext_iff]

theorem atBarrier_eq_some {p q : Program σ γ ρ} : p.atBarrier = some q ↔ p = barrier q := by
  cases p <;> simp [atBarrier]

end Program

@[ext] structure State (n : ℕ) (σ γ ρ : Type*) where
  shared : σ
  parties : Fin n → Program σ γ ρ

inductive Action (n : ℕ)
  | op (i : Fin n)
  | gather
  | barrier

/-- The parties have all come to what they are asked for. -/
def everyone {α : Type*} (f : Fin n → Option α) : Option (Fin n → α) :=
  if h : ∀ i, (f i).isSome then some fun i => (f i).get (h i) else none

theorem everyone_eq_some {α : Type*} {f : Fin n → Option α} {g : Fin n → α} :
    everyone f = some g ↔ ∀ i, f i = some (g i) := by
  unfold everyone
  constructor
  · intro h i
    split at h
    case isTrue hall => rw [← Option.some.inj h, Option.some_get]
    case isFalse => cases h
  · intro h
    have hall : ∀ i, (f i).isSome := fun i => by rw [h i]; rfl
    rw [dif_pos hall]
    exact congrArg some (funext fun i => by simp [h i])

/-- A party's operation, or a collective operation once all parties have come to it. -/
def step (s : State n σ γ ρ) : Action n → Option (State n σ γ ρ)
  | .op i =>
    match s.parties i with
    | .op write next => some ⟨write s.shared, Function.update s.parties i (next s.shared)⟩
    | _ => none
  | .gather =>
    if n = 0 then none
    else (everyone fun i => (s.parties i).atGather).map fun g =>
      ⟨s.shared, fun i => (g i).2 (if i.val = 0 then some (List.ofFn fun j => (g j).1) else none)⟩
  | .barrier =>
    if n = 0 then none
    else (everyone fun i => (s.parties i).atBarrier).map fun g => ⟨s.shared, g⟩

/-- All parties are done. -/
def Finished (s : State n σ γ ρ) : Prop := ∀ i, ∃ r, s.parties i = .done r

/-! ## What a step does -/

theorem step_op_eq_some {s t : State n σ γ ρ} {i : Fin n} :
    step s (.op i) = some t ↔ ∃ write next, s.parties i = .op write next ∧
      t = ⟨write s.shared, Function.update s.parties i (next s.shared)⟩ := by
  rw [step]
  cases hp : s.parties i with
  | op write next => simp [eq_comm]
  | done r => simp
  | gather x next => simp
  | barrier next => simp

theorem step_gather_eq_some {s t : State n σ γ ρ} :
    step s .gather = some t ↔ n ≠ 0 ∧ ∃ (x : Fin n → γ) (next : Fin n → _),
      (∀ i, s.parties i = .gather (x i) (next i)) ∧
        t = ⟨s.shared, fun i => next i (if i.val = 0 then some (List.ofFn x) else none)⟩ := by
  rw [step]
  split_ifs with hn
  · simp [hn]
  · rw [Option.map_eq_some_iff]
    constructor
    · rintro ⟨g, hg, rfl⟩
      have hall := everyone_eq_some.mp hg
      exact ⟨hn, _, _, fun i => Program.atGather_eq_some.mp (hall i), rfl⟩
    · rintro ⟨-, x, next, hall, rfl⟩
      refine ⟨fun i => (x i, next i), everyone_eq_some.mpr fun i => ?_, rfl⟩
      exact Program.atGather_eq_some.mpr (hall i)

theorem step_barrier_eq_some {s t : State n σ γ ρ} :
    step s .barrier = some t ↔ n ≠ 0 ∧ ∃ next, (∀ i, s.parties i = .barrier (next i)) ∧
      t = ⟨s.shared, next⟩ := by
  rw [step]
  split_ifs with hn
  · simp [hn]
  · rw [Option.map_eq_some_iff]
    constructor
    · rintro ⟨g, hg, rfl⟩
      have hall := everyone_eq_some.mp hg
      exact ⟨hn, g, fun i => Program.atBarrier_eq_some.mp (hall i), rfl⟩
    · rintro ⟨-, next, hall, rfl⟩
      exact ⟨next, everyone_eq_some.mpr fun i => Program.atBarrier_eq_some.mpr (hall i), rfl⟩

/-! ## Independent operations -/

/-- Until its next collective operation, the party changes only its own view of what is shared, and
goes by this view alone. -/
def Local (view : Fin n → σ → V) (rest : σ → V) (i : Fin n) : Program σ γ ρ → Prop
  | .op write next =>
    (∀ s, rest (write s) = rest s ∧ ∀ j, j ≠ i → view j (write s) = view j s) ∧
    (∀ s s', view i s = view i s' → view i (write s) = view i (write s') ∧ next s = next s') ∧
    ∀ s, Local view rest i (next s)
  | _ => True

/-- The parties have views of their own, which together with a rest that none of them touches are all
there is. -/
def Independent (s : State n σ γ ρ) : Prop :=
  ∃ (view : Fin n → σ → σ) (rest : σ → σ),
    (∀ x y, (∀ i, view i x = view i y) → rest x = rest y → x = y) ∧
      ∀ i, Local view rest i (s.parties i)

theorem Program.Quiet.local {view : Fin n → σ → V} {rest : σ → V} {i : Fin n} {p : Program σ γ ρ}
    (h : p.Quiet) : Local view rest i p := by
  cases p with
  | op write next => exact h.elim
  | done r => trivial
  | gather x next => trivial
  | barrier next => trivial

/-- Where only one party has anything to do, it may do anything. -/
theorem independent_of_alone [Nonempty σ] {s : State n σ γ ρ} {i : Fin n}
    (h : ∀ j, j ≠ i → (s.parties j).Quiet) : Independent s := by
  let view : Fin n → σ → σ := fun j x => if j = i then x else Classical.arbitrary σ
  let rest : σ → σ := fun _ => Classical.arbitrary σ
  have hlocal : ∀ p : Program σ γ ρ, Local view rest i p := by
    intro p
    induction p with
    | done r => trivial
    | gather x next _ => trivial
    | barrier next _ => trivial
    | op write next ih =>
      refine ⟨fun x => ⟨rfl, fun j hj => ?_⟩, fun x y hxy => ?_, ih⟩
      · simp only [view, if_neg hj]
      · have heq : x = y := by simpa only [view, if_pos] using hxy
        rw [heq]
        exact ⟨rfl, rfl⟩
  refine ⟨view, rest, fun x y hview _ => ?_, fun j => ?_⟩
  · simpa only [view, if_pos] using hview i
  · by_cases hj : j = i
    · rw [hj]
      exact hlocal _
    · exact (h j hj).local

/-- The party reads and writes one entry of a table. -/
def Owns {κ β : Type*} (k : κ) : Program (κ → β) γ ρ → Prop
  | .op write next =>
    (∀ s k', k' ≠ k → write s k' = s k') ∧
    (∀ s s', s k = s' k → write s k = write s' k ∧ next s = next s') ∧
    ∀ s, Owns k (next s)
  | _ => True

theorem Program.Quiet.owns {κ β : Type*} {k : κ} {p : Program (κ → β) γ ρ} (h : p.Quiet) :
    Owns k p := by
  cases p with
  | op write next => exact h.elim
  | done r => trivial
  | gather x next => trivial
  | barrier next => trivial

/-- Parties with entries of their own do not get in each other's way. -/
theorem independent_of_owns {κ β : Type*} [Nonempty β] {s : State n (κ → β) γ ρ} {own : Fin n → κ}
    (hinj : Function.Injective own) (h : ∀ i, Owns (own i) (s.parties i)) : Independent s := by
  classical
  let view : Fin n → (κ → β) → κ → β := fun i x k => if k = own i then x k else Classical.arbitrary β
  let rest : (κ → β) → κ → β := fun x k =>
    if ∃ i, k = own i then Classical.arbitrary β else x k
  have hview : ∀ {i} {x y : κ → β}, view i x = view i y ↔ x (own i) = y (own i) := by
    intro i x y
    constructor
    · intro heq
      simpa [view] using congrFun heq (own i)
    · intro heq
      funext k
      by_cases hk : k = own i
      · simpa [view, hk] using heq
      · simp [view, hk]
  refine ⟨view, rest, fun x y hviews hrest => ?_, fun i => ?_⟩
  · funext k
    by_cases hk : ∃ i, k = own i
    · obtain ⟨i, rfl⟩ := hk
      exact hview.mp (hviews i)
    · simpa [rest, hk] using congrFun hrest k
  · have hown := h i
    generalize s.parties i = p at hown
    induction p with
    | done r => trivial
    | gather x next _ => trivial
    | barrier next _ => trivial
    | op write next ih =>
      obtain ⟨hframe, hentry, hnext⟩ := hown
      refine ⟨fun x => ⟨?_, fun j hj => ?_⟩, fun x y hxy => ?_, fun x => ih x (hnext x)⟩
      · funext k
        by_cases hk : ∃ i, k = own i
        · simp [rest, hk]
        · have hne : k ≠ own i := fun hki => hk ⟨i, hki⟩
          simp [rest, hk, hframe x k hne]
      · exact hview.mpr (hframe x _ (hinj.ne hj))
      · obtain ⟨hwrite, heq⟩ := hentry x y (hview.mp hxy)
        exact ⟨hview.mpr hwrite, heq⟩

/-- What a party does next does not depend on another's operation. -/
theorem Independent.next_eq {s : State n σ γ ρ} (h : Independent s) {i j : Fin n} (hji : j ≠ i)
    {f g : σ → σ} {p q : σ → Program σ γ ρ} (hi : s.parties i = .op f p)
    (hj : s.parties j = .op g q) : q (f s.shared) = q s.shared := by
  obtain ⟨view, rest, -, hlocal⟩ := h
  obtain ⟨hframe, -, -⟩ : Local view rest i (.op f p) := hi ▸ hlocal i
  obtain ⟨-, hview, -⟩ : Local view rest j (.op g q) := hj ▸ hlocal j
  exact (hview _ _ ((hframe s.shared).2 j hji)).2

/-- Operations of different parties may change places. -/
theorem Independent.diamond {s u v : State n σ γ ρ} (h : Independent s) {i j : Fin n} (hij : i ≠ j)
    (hi : step s (.op i) = some u) (hj : step s (.op j) = some v) :
    ∃ t, step u (.op j) = some t ∧ step v (.op i) = some t := by
  obtain ⟨view, rest, hsep, hlocal⟩ := h
  obtain ⟨f, p, hpi, rfl⟩ := step_op_eq_some.mp hi
  obtain ⟨g, q, hpj, rfl⟩ := step_op_eq_some.mp hj
  obtain ⟨hf, hfi, -⟩ : Local view rest i (.op f p) := hpi ▸ hlocal i
  obtain ⟨hg, hgj, -⟩ : Local view rest j (.op g q) := hpj ▸ hlocal j
  have hq : q (f s.shared) = q s.shared := (hgj _ _ ((hf _).2 j hij.symm)).2
  have hp : p (g s.shared) = p s.shared := (hfi _ _ ((hg _).2 i hij)).2
  have hshared : g (f s.shared) = f (g s.shared) := by
    refine hsep _ _ (fun k => ?_) ?_
    · by_cases hki : k = i
      · rw [hki, (hg _).2 i hij]
        exact ((hfi _ _ ((hg _).2 i hij)).1).symm
      · rw [(hf (g s.shared)).2 k hki]
        by_cases hkj : k = j
        · rw [hkj]
          exact (hgj _ _ ((hf _).2 j hij.symm)).1
        · rw [(hg _).2 k hkj, (hg _).2 k hkj, (hf _).2 k hki]
    · rw [(hg _).1, (hf _).1, (hf _).1, (hg _).1]
  refine ⟨⟨g (f s.shared), Function.update (Function.update s.parties i (p s.shared)) j (q s.shared)⟩,
    step_op_eq_some.mpr ⟨g, q, ?_, ?_⟩, step_op_eq_some.mpr ⟨f, p, ?_, ?_⟩⟩
  · exact (Function.update_of_ne hij.symm ..).trans hpj
  · rw [hq]
  · exact (Function.update_of_ne hij ..).trans hpi
  · rw [hp, hshared, Function.update_comm hij]

theorem Independent.op {s t : State n σ γ ρ} (h : Independent s) {i : Fin n}
    (hi : step s (.op i) = some t) : Independent t := by
  obtain ⟨view, rest, hsep, hlocal⟩ := h
  obtain ⟨f, p, hp, rfl⟩ := step_op_eq_some.mp hi
  refine ⟨view, rest, hsep, fun j => ?_⟩
  by_cases hji : j = i
  · obtain ⟨-, -, hnext⟩ : Local view rest i (.op f p) := hp ▸ hlocal i
    simpa only [hji, Function.update_self] using hnext s.shared
  · simpa only [Function.update_of_ne hji] using hlocal j

/-! ## One order for all -/

/-- There is an order of steps that ends, with independent operations only. -/
inductive Orderly : State n σ γ ρ → ℕ → State n σ γ ρ → Prop
  | finished {s : State n σ γ ρ} (h : Finished s) : Orderly s 0 s
  | op {s s' t : State n σ γ ρ} {m : ℕ} (i : Fin n) (hind : Independent s)
      (h : step s (.op i) = some s') (hrest : Orderly s' m t) : Orderly s (m + 1) t
  | gather {s s' t : State n σ γ ρ} {m : ℕ} (h : step s .gather = some s')
      (hrest : Orderly s' m t) : Orderly s (m + 1) t
  | barrier {s s' t : State n σ γ ρ} {m : ℕ} (h : step s .barrier = some s')
      (hrest : Orderly s' m t) : Orderly s (m + 1) t

theorem Finished.step_eq_none {s : State n σ γ ρ} (h : Finished s) (a : Action n) :
    step s a = none := by
  rw [Option.eq_none_iff_forall_ne_some]
  intro t ht
  cases a with
  | op i =>
    obtain ⟨f, p, hp, -⟩ := step_op_eq_some.mp ht
    obtain ⟨r, hr⟩ := h i
    rw [hr] at hp
    cases hp
  | gather =>
    obtain ⟨hn, x, next, hall, -⟩ := step_gather_eq_some.mp ht
    obtain ⟨r, hr⟩ := h ⟨0, Nat.pos_of_ne_zero hn⟩
    rw [hall] at hr
    cases hr
  | barrier =>
    obtain ⟨hn, next, hall, -⟩ := step_barrier_eq_some.mp ht
    obtain ⟨r, hr⟩ := h ⟨0, Nat.pos_of_ne_zero hn⟩
    rw [hall] at hr
    cases hr

theorem op_eq_none_of_gather {s t : State n σ γ ρ} (h : step s .gather = some t) (i : Fin n) :
    step s (.op i) = none := by
  obtain ⟨-, x, next, hall, -⟩ := step_gather_eq_some.mp h
  rw [step, hall i]

theorem op_eq_none_of_barrier {s t : State n σ γ ρ} (h : step s .barrier = some t) (i : Fin n) :
    step s (.op i) = none := by
  obtain ⟨-, next, hall, -⟩ := step_barrier_eq_some.mp h
  rw [step, hall i]

theorem barrier_eq_none_of_gather {s t : State n σ γ ρ} (h : step s .gather = some t) :
    step s .barrier = none := by
  rw [Option.eq_none_iff_forall_ne_some]
  intro u hu
  obtain ⟨hn, x, next, hall, -⟩ := step_gather_eq_some.mp h
  obtain ⟨-, next', hall', -⟩ := step_barrier_eq_some.mp hu
  have hboth := (hall ⟨0, Nat.pos_of_ne_zero hn⟩).symm.trans (hall' _)
  cases hboth

/-- Any step is as good as the one that the order takes. The induction is on the order: a step that
it takes later may be taken now. -/
theorem Orderly.step {s t : State n σ γ ρ} {m : ℕ} (h : Orderly s m t) {a : Action n}
    {u : State n σ γ ρ} (ha : step s a = some u) : ∃ k, m = k + 1 ∧ Orderly u k t := by
  induction h generalizing u with
  | finished hdone =>
    rw [hdone.step_eq_none] at ha
    cases ha
  | @op s s' t m i hind hi hrest ih =>
    cases a with
    | op j =>
      by_cases hij : i = j
      · subst hij
        obtain rfl := Option.some.inj (hi.symm.trans ha)
        exact ⟨m, rfl, hrest⟩
      · obtain ⟨v, hv, hv'⟩ := hind.diamond hij hi ha
        obtain ⟨k, rfl, hk⟩ := ih hv
        exact ⟨k + 1, rfl, .op i (hind.op ha) hv' hk⟩
    | gather =>
      rw [op_eq_none_of_gather ha i] at hi
      cases hi
    | barrier =>
      rw [op_eq_none_of_barrier ha i] at hi
      cases hi
  | @gather s s' t m hg hrest ih =>
    cases a with
    | op j =>
      rw [op_eq_none_of_gather hg j] at ha
      cases ha
    | gather =>
      obtain rfl := Option.some.inj (hg.symm.trans ha)
      exact ⟨m, rfl, hrest⟩
    | barrier =>
      rw [barrier_eq_none_of_gather hg] at ha
      cases ha
  | @barrier s s' t m hb hrest ih =>
    cases a with
    | op j =>
      rw [op_eq_none_of_barrier hb j] at ha
      cases ha
    | gather =>
      rw [barrier_eq_none_of_gather ha] at hb
      cases hb
    | barrier =>
      obtain rfl := Option.some.inj (hb.symm.trans ha)
      exact ⟨m, rfl, hrest⟩

/-- Every run is part of one that takes that many steps to that end. -/
theorem Orderly.run {s t u : State n σ γ ρ} {m : ℕ} (h : Orderly s m t) {as : List (Action n)}
    (hr : StepSystem.run Supersteps.step s as = some u) :
    ∃ k, as.length + k = m ∧ Orderly u k t := by
  induction as generalizing s m with
  | nil =>
    obtain rfl : s = u := Option.some.inj hr
    exact ⟨m, Nat.zero_add m, h⟩
  | cons a as ih =>
    obtain ⟨s', hs', hr'⟩ := StepSystem.run_cons_eq_some.mp hr
    obtain ⟨k, rfl, hk⟩ := h.step hs'
    obtain ⟨l, rfl, hl⟩ := ih hk hr'
    exact ⟨l, by rw [List.length_cons]; omega, hl⟩

/-- No party waits for ever. -/
theorem Orderly.enabled {s t : State n σ γ ρ} {m : ℕ} (h : Orderly s (m + 1) t) :
    ∃ a, (Supersteps.step s a).isSome := by
  cases h with
  | op i _ hi _ => exact ⟨.op i, by rw [hi]; rfl⟩
  | gather hg _ => exact ⟨.gather, by rw [hg]; rfl⟩
  | barrier hb _ => exact ⟨.barrier, by rw [hb]; rfl⟩

theorem Orderly.finished_iff {s t : State n σ γ ρ} {m : ℕ} (h : Orderly s m t) :
    Finished s ↔ m = 0 := by
  cases m with
  | zero =>
    cases h with
    | finished hdone => exact iff_of_true hdone rfl
  | succ m =>
    obtain ⟨a, ha⟩ := h.enabled
    refine iff_of_false (fun hdone => ?_) (Nat.succ_ne_zero m)
    rw [hdone.step_eq_none] at ha
    cases ha

theorem Orderly.eq_of_finished {s t : State n σ γ ρ} {m : ℕ} (h : Orderly s m t)
    (hdone : Finished s) : s = t := by
  obtain rfl := h.finished_iff.mp hdone
  cases h
  rfl

/-- The same of every run: it may go on until it has taken all steps, and then is at the end. -/
theorem Orderly.concurrent {s t u : State n σ γ ρ} {k : ℕ} (h : Orderly s k t)
    {as : List (Action n)} (hr : StepSystem.run Supersteps.step s as = some u) :
    as.length ≤ k ∧ (as.length = k ↔ Finished u) ∧
      (as.length < k → ∃ a, (Supersteps.step u a).isSome) ∧ (Finished u → u = t) := by
  obtain ⟨m, rfl, hm⟩ := h.run hr
  refine ⟨Nat.le_add_right _ _, ?_, fun hlt => ?_, hm.eq_of_finished⟩
  · rw [hm.finished_iff]
    omega
  · obtain ⟨m, rfl⟩ : ∃ l, m = l + 1 := ⟨m - 1, by omega⟩
    exact hm.enabled

/-! ## Putting an order together -/

/-- A party's operations by themselves. -/
inductive Runs : Program σ γ ρ → σ → ℕ → Program σ γ ρ → σ → Prop
  | refl (p : Program σ γ ρ) (s : σ) : Runs p s 0 p s
  | op {write : σ → σ} {next : σ → Program σ γ ρ} {s s' : σ} {k : ℕ} {q : Program σ γ ρ}
      (h : Runs (next s) (write s) k q s') : Runs (.op write next) s (k + 1) q s'

theorem Runs.trans {p q r : Program σ γ ρ} {x y z : σ} {k l : ℕ} (h : Runs p x k q y)
    (h' : Runs q y l r z) : Runs p x (k + l) r z := by
  induction h with
  | refl p s => rwa [Nat.zero_add]
  | @op write next s s' k q _ ih =>
    rw [Nat.add_right_comm]
    exact .op (ih h')

/-- One party has operations, and does them. -/
theorem Orderly.alone [Nonempty σ] {s t : State n σ γ ρ} {m k : ℕ} {i : Fin n}
    {q : Program σ γ ρ} {y : σ} (hquiet : ∀ j, j ≠ i → (s.parties j).Quiet)
    (hruns : Runs (s.parties i) s.shared k q y)
    (hrest : Orderly ⟨y, Function.update s.parties i q⟩ m t) : Orderly s (k + m) t := by
  obtain ⟨x, parties⟩ := s
  simp only at hruns hquiet hrest
  generalize hp : parties i = p at hruns
  induction hruns generalizing parties with
  | refl p x =>
    rw [← hp, Function.update_eq_self] at hrest
    rwa [Nat.zero_add]
  | @op write next x x' k q _ ih =>
    rw [Nat.add_right_comm]
    refine .op i (independent_of_alone hquiet) (step_op_eq_some.mpr ⟨write, next, hp, rfl⟩) ?_
    refine ih _ ?_ ?_ (Function.update_self ..)
    · intro j hj
      rw [Function.update_of_ne hj]
      exact hquiet j hj
    · rwa [Function.update_idem]

/-- Some parties have one operation each, and do it one after the other. -/
theorem Orderly.sweep {t : State n σ γ ρ} {m : ℕ} {write : Fin n → σ → σ}
    {next : Fin n → σ → Program σ γ ρ} {l : List (Fin n)} (hnodup : l.Nodup) {s : State n σ γ ρ}
    (hind : Independent s) (hp : ∀ i ∈ l, s.parties i = .op (write i) (next i))
    (hrest : Orderly ⟨l.foldl (fun x i => write i x) s.shared,
      fun i => if i ∈ l then next i s.shared else s.parties i⟩ m t) :
    Orderly s (l.length + m) t := by
  induction l generalizing s with
  | nil => simpa using hrest
  | cons i l ih =>
    obtain ⟨hi, hnodup⟩ := List.nodup_cons.mp hnodup
    have hparty := hp i List.mem_cons_self
    have hstep := step_op_eq_some.mpr ⟨write i, next i, hparty, rfl⟩
    have hne : ∀ j ∈ l, j ≠ i := fun j hj h => hi (h ▸ hj)
    rw [List.length_cons, Nat.add_right_comm]
    refine .op i hind hstep (ih hnodup (hind.op hstep) ?_ ?_)
    · intro j hj
      exact (Function.update_of_ne (hne j hj) ..).trans (hp j (List.mem_cons_of_mem i hj))
    · have hparties : (fun j => if j ∈ l then next j (write i s.shared) else
          Function.update s.parties i (next i s.shared) j) =
            fun j => if j ∈ i :: l then next j s.shared else s.parties j := by
        funext j
        by_cases hj : j ∈ l
        · rw [if_pos hj, if_pos (List.mem_cons_of_mem i hj)]
          exact hind.next_eq (hne j hj) hparty (hp j (List.mem_cons_of_mem i hj))
        · by_cases hji : j = i
          · subst hji
            rw [if_neg hj, if_pos List.mem_cons_self, Function.update_self]
          · rw [if_neg hj, Function.update_of_ne hji, if_neg (by simp [hj, hji])]
      rw [hparties]
      exact hrest

/-- All parties have one operation, and do it. -/
theorem Orderly.round {s t : State n σ γ ρ} {m : ℕ} {write : Fin n → σ → σ}
    {next : Fin n → σ → Program σ γ ρ} (hind : Independent s)
    (hp : ∀ i, s.parties i = .op (write i) (next i))
    (hrest : Orderly ⟨(List.finRange n).foldl (fun x i => write i x) s.shared,
      fun i => next i s.shared⟩ m t) : Orderly s (n + m) t := by
  have hall := Orderly.sweep (List.nodup_finRange n) hind (fun i _ => hp i) (m := m) (t := t)
  simp only [List.mem_finRange, if_true, List.length_finRange] at hall
  exact hall hrest

end Supersteps
