import Mathlib.Tactic
import Damaris.Lib.StepSystem
import Damaris.Lib.Fifo

/-!
# Group actions

A `GroupAction` counts the clients' calls for each iteration, and calls its base action when the
count reaches the number of clients that its server knows. Clients are named by their
ranks; a client connects before it does anything else.
-/
namespace Damaris.Group

/-- What a client sends that matters here. -/
inductive Sent
  | connect
  | callAction (source iteration : ℤ)
  deriving DecidableEq

/-- `Environment::AddConnectedClient`. -/
def addConnectedClient (known : List ℕ) (id : ℕ) : List ℕ :=
  if id ∈ known then known else known ++ [id]

/-- `GroupAction::Call`: what it leaves in `locks_`, and whether it calls the base action. -/
def call (hasServer isLocal : Bool) (known : List ℕ) (locks : ℤ → ℕ) (source iteration : ℤ) :
    (ℤ → ℕ) × Bool :=
  -- an external call
  if source = -1 then (locks, true)
  else if !hasServer || isLocal then (locks, true)
  else
    let count := locks iteration + 1
    if known.length ≤ count then (Function.update locks iteration 0, true)
    else (Function.update locks iteration count, false)

/-- What a server keeps for one group action. An iteration that `locks` does not have is at 0.
`handled` and `ran` are history: for which iterations the server has handled a client's
signals, and for which it has called the base action. -/
structure Server where
  known : List ℕ
  locks : ℤ → ℕ
  handled : ℕ → List ℤ
  ran : List ℤ

/-- `Server::OnConnect`. -/
def Server.onConnect (sv : Server) (source : ℕ) : Server :=
  { sv with known := addConnectedClient sv.known source }

/-- `Server::OnCallAction`, for a message from client `r`. -/
def Server.onCallAction (sv : Server) (r : ℕ) (source iteration : ℤ) : Server :=
  let x := call true false sv.known sv.locks source iteration
  { sv with
    locks := x.1
    handled := Function.update sv.handled r (sv.handled r ++ [iteration])
    ran := if x.2 then sv.ran ++ [iteration] else sv.ran }

structure State where
  iteration : ℕ → ℤ
  queue : Fifo.Channels ℕ Sent
  server : Server

inductive Action
  | signal (r : ℕ)
  | endIteration (r : ℕ)
  | handle (r : ℕ)

namespace State

variable (clients : Finset ℕ)

/-- Clients signal at will, and the server handles the messages of each in order. -/
def step (s : State) : Action → Option State
  | .signal r =>
    if r ∈ clients then
      some { s with queue := Fifo.push s.queue r (.callAction r (s.iteration r)) }
    else none
  | .endIteration r =>
    some { s with iteration := Function.update s.iteration r (s.iteration r + 1) }
  | .handle r =>
    match Fifo.pop s.queue r with
    | none => none
    | some (.connect, queue) => some { s with queue := queue, server := s.server.onConnect r }
    | some (.callAction source iteration, queue) =>
      some { s with queue := queue, server := s.server.onCallAction r source iteration }

def initial : State where
  iteration := fun _ => 0
  queue := fun r => if r ∈ clients then [.connect] else []
  server := ⟨[], fun _ => 0, fun _ => [], []⟩

/-- The base action has not been called for an iteration more often than every client
has signalled it. -/
def Waits (s : State) : Prop :=
  ∀ i, ∀ r ∈ clients, s.server.ran.count i ≤ (s.server.handled r).count i

/-- The base action is called once for an iteration that every client has signalled once. -/
def RunsOnce (s : State) : Prop :=
  ∀ i, (∀ r ∈ clients, (s.server.handled r).count i ≤ 1) → s.server.ran.count i ≤ 1 ∧
    (clients.Nonempty → (∀ r ∈ clients, (s.server.handled r).count i = 1) →
      s.server.ran.count i = 1)

/-- The condition on a step: a signal that brings the count to the number of known clients
finds all of them known, and no client has signalled twice since the last call. -/
def Complete (s : State) : Action → Prop
  | .handle r => ∀ source i rest, s.queue r = .callAction source i :: rest →
      s.server.known.length ≤ s.server.locks i + 1 → (∀ q ∈ clients, q ∈ s.server.known) ∧
        ∀ q, (s.server.handled q).count i + (if q = r then 1 else 0) ≤ s.server.ran.count i + 1
  | _ => True

end State

open State

variable {clients : Finset ℕ} {s s' : State} {act : Action}

theorem mem_addConnectedClient {known : List ℕ} {id r : ℕ} :
    r ∈ addConnectedClient known id ↔ r ∈ known ∨ r = id := by
  unfold addConnectedClient
  split_ifs with h
  · exact ⟨.inl, fun hr => hr.elim (fun hr => hr) fun he => he ▸ h⟩
  · simp

theorem nodup_addConnectedClient {known : List ℕ} (h : known.Nodup) (id : ℕ) :
    (addConnectedClient known id).Nodup := by
  unfold addConnectedClient
  split_ifs with hid
  · exact h
  · exact List.nodup_append.mpr ⟨h, List.nodup_singleton id, fun a ha b hb => by
      rw [List.mem_singleton.mp hb]
      exact fun he => hid (he ▸ ha)⟩

theorem length_addConnectedClient (known : List ℕ) (id : ℕ) :
    known.length ≤ (addConnectedClient known id).length := by
  unfold addConnectedClient
  split_ifs <;> simp

/-- A client's rank is not -1. -/
theorem call_client (known : List ℕ) (locks : ℤ → ℕ) (r : ℕ) (i : ℤ) :
    call true false known locks r i =
      if known.length ≤ locks i + 1 then (Function.update locks i 0, true)
      else (Function.update locks i (locks i + 1), false) := by
  have hne : (r : ℤ) ≠ -1 := by omega
  simp [call, hne]

/-- What is in flight: a client that is not known has its `CONNECT` ahead of all else. -/
structure Orderly (clients : Finset ℕ) (s : State) : Prop where
  opens : ∀ r ∈ clients, r ∈ s.server.known ∨ (s.queue r).head? = some .connect
  outside : ∀ r ∉ clients, s.queue r = []
  sources : ∀ r source i, .callAction source i ∈ s.queue r → source = (r : ℤ)

theorem orderly_initial : Orderly clients (initial clients) where
  opens := fun r hr => .inr (by simp [initial, hr])
  outside := fun r hr => if_neg hr
  sources := fun r source i h => by
    simp only [initial] at h
    split_ifs at h <;> simp at h

theorem Orderly.mem_clients (h : Orderly clients s) {r : ℕ} {m : Sent} {rest : List Sent}
    (hq : s.queue r = m :: rest) : r ∈ clients := by
  by_contra hr
  exact absurd (hq.symm.trans (h.outside r hr)) (List.cons_ne_nil m rest)

theorem Orderly.mem_known (h : Orderly clients s) {r : ℕ} {source i : ℤ} {rest : List Sent}
    (hq : s.queue r = .callAction source i :: rest) : r ∈ s.server.known := by
  refine (h.opens r (h.mem_clients hq)).resolve_right ?_
  rw [hq]
  simp

/-- What a step does to the server. -/
theorem Orderly.step_cases (h : Orderly clients s) (hs : step clients s act = some s') :
    (s'.server = s.server ∧ s.Complete clients act) ∨
    (∃ r ∈ clients, s'.server = s.server.onConnect r ∧ s.Complete clients act) ∨
    ∃ r i rest, act = .handle r ∧ s.queue r = .callAction r i :: rest ∧ r ∈ s.server.known ∧
      s'.server = s.server.onCallAction r r i := by
  cases act with
  | signal r =>
    simp only [step] at hs
    split_ifs at hs
    obtain rfl := Option.some.inj hs
    exact .inl ⟨rfl, trivial⟩
  | endIteration r =>
    obtain rfl := Option.some.inj hs
    exact .inl ⟨rfl, trivial⟩
  | handle r =>
    simp only [step] at hs
    cases hq : s.queue r with
    | nil => simp [Fifo.pop, hq] at hs
    | cons m rest =>
      have hpop : Fifo.pop s.queue r = some (m, Function.update s.queue r rest) :=
        Fifo.pop_eq_some.mpr ⟨rest, hq, rfl⟩
      rw [hpop] at hs
      cases m with
      | connect =>
        obtain rfl := Option.some.inj hs
        refine .inr (.inl ⟨r, h.mem_clients hq, rfl, fun source i rest' hq' => ?_⟩)
        rw [hq] at hq'
        exact absurd (List.cons.inj hq').1 (by simp)
      | callAction source i =>
        obtain rfl := Option.some.inj hs
        obtain rfl := h.sources r source i (hq ▸ List.mem_cons_self)
        exact .inr (.inr ⟨r, i, rest, rfl, hq, h.mem_known hq, rfl⟩)

theorem Orderly.update (h : Orderly clients s) {r : ℕ} {xs : List Sent} (hr : r ∈ clients)
    (hqueue : s'.queue = Function.update s.queue r xs)
    (hknown : ∀ q ∈ s.server.known, q ∈ s'.server.known)
    (hopens : r ∈ s'.server.known ∨ xs.head? = some .connect)
    (hsources : ∀ source i, .callAction source i ∈ xs → source = (r : ℤ)) : Orderly clients s' := by
  refine ⟨fun q hq => ?_, fun q hq => ?_, fun q source i hmem => ?_⟩
  · rw [hqueue]
    by_cases hqr : q = r
    · subst hqr
      rwa [Function.update_self]
    · rw [Function.update_of_ne hqr]
      exact (h.opens q hq).imp_left (hknown q)
  · have hqr : q ≠ r := fun he => hq (he ▸ hr)
    rw [hqueue, Function.update_of_ne hqr]
    exact h.outside q hq
  · rw [hqueue] at hmem
    by_cases hqr : q = r
    · subst hqr
      rw [Function.update_self] at hmem
      exact hsources source i hmem
    · rw [Function.update_of_ne hqr] at hmem
      exact h.sources q source i hmem

theorem Orderly.step (h : Orderly clients s) (hs : step clients s act = some s') :
    Orderly clients s' := by
  cases act with
  | signal r =>
    simp only [State.step] at hs
    split_ifs at hs with hr
    obtain rfl := Option.some.inj hs
    refine h.update hr rfl (fun _ hq => hq) ((h.opens r hr).imp_right fun hhead => ?_)
      fun source i hmem => ?_
    · rw [List.head?_append, hhead]
      rfl
    · rcases List.mem_append.mp hmem with hmem | hmem
      · exact h.sources r source i hmem
      · exact (Sent.callAction.inj (List.mem_singleton.mp hmem)).1
  | endIteration r =>
    obtain rfl := Option.some.inj hs
    exact ⟨h.opens, h.outside, h.sources⟩
  | handle r =>
    simp only [State.step] at hs
    cases hpop : Fifo.pop s.queue r with
    | none => simp [hpop] at hs
    | some x =>
      obtain ⟨m, queue⟩ := x
      obtain ⟨rest, hq, rfl⟩ := Fifo.pop_eq_some.mp hpop
      have hr : r ∈ clients := h.mem_clients hq
      have hrest : ∀ source i, .callAction source i ∈ rest → source = (r : ℤ) :=
        fun source i hmem => h.sources r source i (hq ▸ List.mem_cons_of_mem m hmem)
      rw [hpop] at hs
      cases m with
      | connect =>
        obtain rfl := Option.some.inj hs
        exact h.update hr rfl (fun q hq => mem_addConnectedClient.mpr (.inl hq))
          (.inl (mem_addConnectedClient.mpr (.inr rfl))) hrest
      | callAction source i =>
        obtain rfl := Option.some.inj hs
        exact h.update hr rfl (fun _ hq => hq) (.inl (h.mem_known hq)) hrest

/-! ## The counters -/

namespace Server

variable {sv : Server} {r : ℕ} {i : ℤ}

/-- A signal completes the group or is counted. -/
theorem onCallAction_cases (sv : Server) (r : ℕ) (i : ℤ) :
    (sv.known.length ≤ sv.locks i + 1 ∧
      (sv.onCallAction r r i).locks = Function.update sv.locks i 0 ∧
      (sv.onCallAction r r i).ran = sv.ran ++ [i]) ∨
    (sv.locks i + 1 < sv.known.length ∧
      (sv.onCallAction r r i).locks = Function.update sv.locks i (sv.locks i + 1) ∧
      (sv.onCallAction r r i).ran = sv.ran) := by
  simp only [onCallAction, call_client]
  by_cases hle : sv.known.length ≤ sv.locks i + 1
  · exact .inl ⟨hle, by rw [if_pos hle], by rw [if_pos hle]; rfl⟩
  · exact .inr ⟨not_le.mp hle, by rw [if_neg hle], by rw [if_neg hle]; rfl⟩

/-- The other iterations are left alone. -/
theorem onCallAction_other (sv : Server) (r : ℕ) {i j : ℤ} (hj : j ≠ i) :
    (sv.onCallAction r r i).locks j = sv.locks j ∧
      (sv.onCallAction r r i).ran.count j = sv.ran.count j := by
  rcases sv.onCallAction_cases r i with ⟨-, hlocks, hran⟩ | ⟨-, hlocks, hran⟩
  · rw [hlocks, hran, Function.update_of_ne hj, List.count_append,
      List.count_eq_zero_of_not_mem fun hmem => hj (List.mem_singleton.mp hmem)]
    exact ⟨rfl, rfl⟩
  · rw [hlocks, hran, Function.update_of_ne hj]
    exact ⟨rfl, rfl⟩

theorem count_handled (sv : Server) (r : ℕ) (source i : ℤ) (q : ℕ) (j : ℤ) :
    ((sv.onCallAction r source i).handled q).count j =
      (sv.handled q).count j + if q = r ∧ j = i then 1 else 0 := by
  simp only [onCallAction]
  by_cases hq : q = r
  · subst hq
    rw [Function.update_self, List.count_append]
    by_cases hj : j = i
    · subst hj
      simp
    · rw [List.count_eq_zero_of_not_mem fun hmem => hj (List.mem_singleton.mp hmem),
        if_neg fun h => hj h.2]
  · rw [Function.update_of_ne hq, if_neg fun h => hq h.1]
    rfl

/-- The signals for an iteration that the server has handled. -/
def total (clients : Finset ℕ) (sv : Server) (i : ℤ) : ℕ := ∑ q ∈ clients, (sv.handled q).count i

theorem total_onCallAction (sv : Server) (hr : r ∈ clients) (source i j : ℤ) :
    (sv.onCallAction r source i).total clients j = sv.total clients j + if j = i then 1 else 0 := by
  unfold total
  simp only [count_handled, Finset.sum_add_distrib]
  congr 1
  by_cases hj : j = i <;> simp [hj, hr]

/-- What holds of the counters in every run. -/
structure Sound (clients : Finset ℕ) (sv : Server) : Prop where
  nodup : sv.known.Nodup
  subset : ∀ q ∈ sv.known, q ∈ clients
  silent : ∀ q ∉ sv.known, sv.handled q = []
  below : ∀ i, sv.locks i = 0 ∨ sv.locks i < sv.known.length

theorem Sound.length_le (h : Sound clients sv) : sv.known.length ≤ clients.card := by
  rw [← List.toFinset_card_of_nodup h.nodup]
  exact Finset.card_le_card fun q hq => h.subset q (List.mem_toFinset.mp hq)

theorem Sound.length_of_all (h : Sound clients sv) (hall : ∀ q ∈ clients, q ∈ sv.known) :
    sv.known.length = clients.card := by
  refine le_antisymm h.length_le ?_
  rw [← List.toFinset_card_of_nodup h.nodup]
  exact Finset.card_le_card fun q hq => List.mem_toFinset.mpr (hall q hq)

theorem Sound.onConnect (h : Sound clients sv) (hr : r ∈ clients) :
    Sound clients (sv.onConnect r) where
  nodup := nodup_addConnectedClient h.nodup r
  subset := fun q hq => (mem_addConnectedClient.mp hq).elim (h.subset q) fun he => he ▸ hr
  silent := fun q hq => h.silent q fun hmem => hq (mem_addConnectedClient.mpr (.inl hmem))
  below := fun i => (h.below i).imp_right fun hlt =>
    hlt.trans_le (length_addConnectedClient sv.known r)

theorem Sound.onCallAction (h : Sound clients sv) (hr : r ∈ sv.known) (i : ℤ) :
    Sound clients (sv.onCallAction r r i) where
  nodup := h.nodup
  subset := h.subset
  silent := fun q hq => by
    have hqr : q ≠ r := fun he => hq (he ▸ hr)
    simp only [Server.onCallAction, Function.update_of_ne hqr]
    exact h.silent q hq
  below := fun j => by
    by_cases hj : j = i
    · subst hj
      rcases sv.onCallAction_cases r j with ⟨-, hlocks, -⟩ | ⟨hlt, hlocks, -⟩
      · rw [hlocks, Function.update_self]
        exact .inl rfl
      · rw [hlocks, Function.update_self]
        exact .inr hlt
    · rw [(sv.onCallAction_other r hj).1]
      exact h.below j

/-! ### One call for one signal each -/

/-- Every call of the base action has used up a signal. -/
structure Accounts (clients : Finset ℕ) (sv : Server) (i : ℤ) : Prop where
  spent : sv.locks i + sv.ran.count i ≤ sv.total clients i
  unspent : sv.ran.count i = 0 → sv.locks i = sv.total clients i
  once : (∀ q ∈ clients, (sv.handled q).count i ≤ 1) → sv.ran.count i ≤ 1

theorem Sound.total_le (h : Sound clients sv) {i : ℤ}
    (hone : ∀ q ∈ clients, (sv.handled q).count i ≤ 1) : sv.total clients i ≤ sv.known.length := by
  have hsubset : sv.known.toFinset ⊆ clients := fun q hq => h.subset q (List.mem_toFinset.mp hq)
  have hzero : ∀ q ∈ clients, q ∉ sv.known.toFinset → (sv.handled q).count i = 0 :=
    fun q _ hq => by rw [h.silent q fun hmem => hq (List.mem_toFinset.mpr hmem), List.count_nil]
  unfold total
  rw [← Finset.sum_subset hsubset hzero, ← List.toFinset_card_of_nodup h.nodup]
  have hle := Finset.sum_le_card_nsmul sv.known.toFinset (fun q => (sv.handled q).count i) 1
    fun q hq => hone q (hsubset hq)
  simpa using hle

theorem Accounts.onCallAction (h : Sound clients sv) (hr : r ∈ sv.known) {j : ℤ}
    (ha : Accounts clients sv j) (i : ℤ) : Accounts clients (sv.onCallAction r r i) j := by
  have hsound' := h.onCallAction hr i
  have htotal := total_onCallAction sv (h.subset r hr) r i j
  have hgrow : ∀ q, (sv.handled q).count j ≤ ((sv.onCallAction r r i).handled q).count j :=
    fun q => by rw [count_handled]; exact Nat.le_add_right _ _
  by_cases hj : j = i
  · subst hj
    rw [if_pos rfl] at htotal
    rcases sv.onCallAction_cases r j with ⟨hfull, hlocks, hran⟩ | ⟨-, hlocks, hran⟩
    · have hlocks' : (sv.onCallAction r r j).locks j = 0 := by rw [hlocks, Function.update_self]
      have hran' : (sv.onCallAction r r j).ran.count j = sv.ran.count j + 1 := by rw [hran]; simp
      refine ⟨?_, ?_, fun hone => ?_⟩
      · have := ha.spent
        omega
      · omega
      · -- a second call would need more signals than there are known clients
        have hle := hsound'.total_le hone
        have hknown : (sv.onCallAction r r j).known = sv.known := rfl
        rw [hknown] at hle
        have := ha.once fun q hq => (hgrow q).trans (hone q hq)
        have := ha.spent
        omega
    · have hlocks' : (sv.onCallAction r r j).locks j = sv.locks j + 1 := by
        rw [hlocks, Function.update_self]
      refine ⟨?_, fun hzero => ?_, fun hone => ?_⟩
      · have := ha.spent
        rw [hran]
        omega
      · rw [hran] at hzero
        have := ha.unspent hzero
        omega
      · rw [hran]
        exact ha.once fun q hq => (hgrow q).trans (hone q hq)
  · obtain ⟨hlocks, hran⟩ := sv.onCallAction_other r hj
    rw [if_neg hj, Nat.add_zero] at htotal
    refine ⟨?_, ?_, fun hone => ?_⟩
    · rw [hlocks, hran, htotal]
      exact ha.spent
    · rw [hlocks, hran, htotal]
      exact ha.unspent
    · rw [hran]
      exact ha.once fun q hq => (hgrow q).trans (hone q hq)

/-! ### Every call after a signal of each -/

/-- Every call of the base action has used up one signal of each client. -/
structure Level (clients : Finset ℕ) (sv : Server) : Prop where
  total : ∀ i, sv.total clients i = sv.locks i + clients.card * sv.ran.count i
  waits : ∀ i, ∀ q ∈ clients, sv.ran.count i ≤ (sv.handled q).count i

theorem Sound.locks_last (h : Sound clients sv) (hr : r ∈ sv.known)
    (hfull : sv.known.length ≤ sv.locks i + 1) (hall : ∀ q ∈ clients, q ∈ sv.known) :
    sv.locks i + 1 = clients.card := by
  have := h.length_of_all hall
  have := List.length_pos_of_mem hr
  have := h.below i
  omega

/-- The last signal of a group, when all clients are known: no client has signalled too
often if and only if each has signalled. -/
theorem Level.complete_iff (h : Sound clients sv) (hl : Level clients sv) (hr : r ∈ sv.known)
    (hfull : sv.known.length ≤ sv.locks i + 1) (hall : ∀ q ∈ clients, q ∈ sv.known) :
    (∀ q, (sv.handled q).count i + (if q = r then 1 else 0) ≤ sv.ran.count i + 1) ↔
      ∀ q ∈ clients, sv.ran.count i + 1 ≤ ((sv.onCallAction r r i).handled q).count i := by
  have hlast := h.locks_last hr hfull hall
  have htotal : ∑ q ∈ clients, ((sv.onCallAction r r i).handled q).count i =
      ∑ _q ∈ clients, (sv.ran.count i + 1) := by
    have htotal := total_onCallAction sv (h.subset r hr) r i i
    rw [if_pos rfl, hl.total i] at htotal
    rw [Finset.sum_const, smul_eq_mul, mul_add, mul_one, ← hlast]
    rw [← hlast] at htotal
    exact htotal.trans (by ring)
  have hcount : ∀ q, ((sv.onCallAction r r i).handled q).count i =
      (sv.handled q).count i + if q = r then 1 else 0 := fun q => by
    rw [count_handled]
    simp
  constructor
  · intro hle q hq
    have heq := (Finset.sum_eq_sum_iff_of_le fun q _ => (hcount q).trans_le (hle q)).mp htotal
    exact (heq q hq).ge
  · intro hge q
    have heq := (Finset.sum_eq_sum_iff_of_le hge).mp htotal.symm
    by_cases hq : q ∈ clients
    · rw [← hcount]
      exact (heq q hq).ge
    · have hnot : q ∉ sv.known := fun hmem => hq (h.subset q hmem)
      have hqr : q ≠ r := fun he => hnot (he ▸ hr)
      rw [h.silent q hnot, List.count_nil, if_neg hqr]
      exact Nat.zero_le _

theorem Level.onCallAction (h : Sound clients sv) (hl : Level clients sv) (hr : r ∈ sv.known)
    (hguard : sv.known.length ≤ sv.locks i + 1 → (∀ q ∈ clients, q ∈ sv.known) ∧
      ∀ q, (sv.handled q).count i + (if q = r then 1 else 0) ≤ sv.ran.count i + 1) :
    Level clients (sv.onCallAction r r i) := by
  have htotal := fun j => total_onCallAction sv (h.subset r hr) r i j
  have hgrow : ∀ q j, (sv.handled q).count j ≤ ((sv.onCallAction r r i).handled q).count j :=
    fun q j => by rw [count_handled]; exact Nat.le_add_right _ _
  refine ⟨fun j => ?_, fun j q hq => ?_⟩
  · rw [htotal, hl.total j]
    by_cases hj : j = i
    · subst hj
      rw [if_pos rfl]
      rcases sv.onCallAction_cases r j with ⟨hfull, hlocks, hran⟩ | ⟨-, hlocks, hran⟩
      · have hlast := h.locks_last hr hfull (hguard hfull).1
        rw [hlocks, hran, Function.update_self, List.count_append, List.count_singleton_self, ← hlast]
        ring
      · rw [hlocks, hran, Function.update_self]
        ring
    · obtain ⟨hlocks, hran⟩ := sv.onCallAction_other r hj
      rw [if_neg hj, hlocks, hran, Nat.add_zero]
  · by_cases hj : j = i
    · subst hj
      rcases sv.onCallAction_cases r j with ⟨hfull, -, hran⟩ | ⟨-, -, hran⟩
      · obtain ⟨hall, hle⟩ := hguard hfull
        have hge := (hl.complete_iff h hr hfull hall).mp hle q hq
        rw [hran, List.count_append, List.count_singleton_self]
        exact hge
      · rw [hran]
        exact (hl.waits j q hq).trans (hgrow q j)
    · rw [(sv.onCallAction_other r hj).2]
      exact (hl.waits j q hq).trans (hgrow q j)

/-- A call of the base action that no client has been left out of needs the condition. -/
theorem Level.complete_of_waits (h : Sound clients sv) (hl : Level clients sv) (hr : r ∈ sv.known)
    (hwaits : ∀ q ∈ clients, (sv.onCallAction r r i).ran.count i ≤
      ((sv.onCallAction r r i).handled q).count i)
    (hfull : sv.known.length ≤ sv.locks i + 1) : (∀ q ∈ clients, q ∈ sv.known) ∧
      ∀ q, (sv.handled q).count i + (if q = r then 1 else 0) ≤ sv.ran.count i + 1 := by
  have hran : (sv.onCallAction r r i).ran.count i = sv.ran.count i + 1 := by
    rcases sv.onCallAction_cases r i with ⟨-, -, hran⟩ | ⟨hlt, -, -⟩
    · rw [hran, List.count_append, List.count_singleton_self]
    · exact absurd hfull hlt.not_ge
  rw [hran] at hwaits
  have hall : ∀ q ∈ clients, q ∈ sv.known := by
    intro q hq
    by_contra hnot
    have hqr : q ≠ r := fun he => hnot (he ▸ hr)
    have hge := hwaits q hq
    rw [count_handled, h.silent q hnot, if_neg fun he => hqr he.1] at hge
    simp at hge
  exact ⟨hall, (hl.complete_iff h hr hfull hall).mpr hwaits⟩

end Server

/-! ## Runs -/

/-- What holds in every run. -/
structure Inv (clients : Finset ℕ) (s : State) : Prop where
  orderly : Orderly clients s
  sound : Server.Sound clients s.server
  accounts : ∀ i, Server.Accounts clients s.server i

theorem inv_initial : Inv clients (initial clients) where
  orderly := orderly_initial
  sound := ⟨List.nodup_nil, fun _ hq => absurd hq List.not_mem_nil, fun _ _ => rfl, fun _ => .inl rfl⟩
  accounts := fun i => ⟨Nat.zero_le _, fun _ => by simp [Server.total, initial], fun _ => by
    simp [initial]⟩

theorem inv_step (h : Inv clients s) (hs : step clients s act = some s') : Inv clients s' := by
  refine ⟨h.orderly.step hs, ?_, fun i => ?_⟩
  · rcases h.orderly.step_cases hs with ⟨he, -⟩ | ⟨r, hr, he, -⟩ | ⟨r, i, rest, -, -, hr, he⟩
    · rw [he]
      exact h.sound
    · rw [he]
      exact h.sound.onConnect hr
    · rw [he]
      exact h.sound.onCallAction hr i
  · rcases h.orderly.step_cases hs with ⟨he, -⟩ | ⟨r, hr, he, -⟩ | ⟨r, j, rest, -, -, hr, he⟩
    · rw [he]
      exact h.accounts i
    · rw [he]
      exact ⟨(h.accounts i).spent, (h.accounts i).unspent, (h.accounts i).once⟩
    · rw [he]
      exact (h.accounts i).onCallAction h.sound hr j

theorem Inv.level_step (h : Inv clients s) (hl : Server.Level clients s.server)
    (hg : s.Complete clients act) (hs : step clients s act = some s') :
    Server.Level clients s'.server := by
  rcases h.orderly.step_cases hs with ⟨he, -⟩ | ⟨r, hr, he, -⟩ | ⟨r, i, rest, rfl, hq, hr, he⟩
  · rw [he]
    exact hl
  · rw [he]
    exact ⟨hl.total, hl.waits⟩
  · rw [he]
    exact hl.onCallAction h.sound hr (hg r i rest hq)

theorem Inv.complete_of_waits (h : Inv clients s) (hl : Server.Level clients s.server)
    (hwaits : ∀ s', step clients s act = some s' → s'.Waits clients) : s.Complete clients act := by
  cases act with
  | signal r => trivial
  | endIteration r => trivial
  | handle r =>
    intro source i rest hq
    obtain rfl := h.orderly.sources r source i (hq ▸ List.mem_cons_self)
    have hpop : Fifo.pop s.queue r = some (.callAction r i, Function.update s.queue r rest) :=
      Fifo.pop_eq_some.mpr ⟨rest, hq, rfl⟩
    have hstep : step clients s (.handle r) = some { s with
        queue := Function.update s.queue r rest
        server := s.server.onCallAction r r i } := by
      simp only [State.step, hpop]
    exact hl.complete_of_waits h.sound (h.orderly.mem_known hq) (hwaits _ hstep i)

theorem Inv.runsOnce (h : Inv clients s) : s.RunsOnce clients := by
  intro i hone
  refine ⟨(h.accounts i).once hone, fun hclients hall => ?_⟩
  have hle := (h.accounts i).once hone
  have hknown : ∀ q ∈ clients, q ∈ s.server.known := by
    intro q hq
    by_contra hnot
    have hcount := hall q hq
    rw [h.sound.silent q hnot] at hcount
    simp at hcount
  have htotal : s.server.total clients i = clients.card := by
    unfold Server.total
    rw [Finset.sum_congr rfl hall]
    simp
  have hunspent := (h.accounts i).unspent
  have hlength := h.sound.length_of_all hknown
  have hbelow := h.sound.below i
  have hpos := hclients.card_pos
  omega

/-- The base action waits for every client exactly in the runs in which each group is
complete; it is called once for one signal of each client in every run. -/
theorem group_waits_iff (clients : Finset ℕ) (acts : List Action) :
    (StepSystem.Always (step clients) (Waits clients) (initial clients) acts ↔
      StepSystem.Guarded (step clients) (Complete clients) (initial clients) acts) ∧
    StepSystem.Always (step clients) (RunsOnce clients) (initial clients) acts := by
  constructor
  · refine StepSystem.always_iff_guarded
      (I := fun s => Inv clients s ∧ Server.Level clients s.server)
      (fun s act s' hI hg hs => ⟨inv_step hI.1 hs, hI.1.level_step hI.2 hg hs⟩) (fun s hI => hI.2.waits)
      (fun s act hI hwaits => hI.1.complete_of_waits hI.2 hwaits) ⟨inv_initial, ?_, ?_⟩
    · intro i
      simp [Server.total, initial]
    · intro i q _
      exact Nat.zero_le _
  · exact StepSystem.Guarded.always (G := fun _ _ => True) (fun s act s' hI _ hs => inv_step hI hs)
      (fun s hI => hI.runsOnce) inv_initial (StepSystem.guarded_of_forall fun _ _ => trivial)

/-- The first client connects and signals before the second has connected. -/
theorem ran_too_early : (StepSystem.run (step {0, 1}) (initial {0, 1})
      [.handle 0, .signal 0, .handle 0]).map
        (fun s => (s.server.ran, s.queue 1, s.server.handled 1)) =
    some ([0], [.connect], []) := by
  decide

end Damaris.Group
