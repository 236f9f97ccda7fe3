import Mathlib.Tactic
import Damaris.Server.Rounds

/-!
# Every iteration is complete when it is processed

The invariant of all parties, over every interleaving. It needs one condition on
the order in which headers are handled, and the headers of iterations without
errors always meet it.
-/
set_option linter.unusedSectionVars false

namespace Damaris.Iteration

open Damaris.Data Damaris.Msg Damaris.Comm

namespace State

variable {c : Topology} {m : ℕ} {G : Type*} {s s' : State c m G}

/-- The rounds among the first `n` that ended without errors. -/
def rounds (s : State c m G) (n : ℕ) : ℕ := (List.range n).countP fun k => !s.failed k

@[simp] theorem rounds_zero : s.rounds 0 = 0 := rfl

theorem rounds_succ (n : ℕ) : s.rounds (n + 1) = s.rounds n + (!s.failed n).toNat := by
  rw [rounds, List.range_succ, List.countP_append, rounds]
  cases h : s.failed n <;> simp [h]

theorem rounds_congr {n : ℕ} (h : ∀ k < n, s'.failed k = s.failed k) : s'.rounds n = s.rounds n := by
  refine List.countP_congr fun k hk => ?_
  rw [h k (List.mem_range.mp hk)]

/-- What the clients have agreed on: a reduction that one client has returned
from has had a vote of every client, and its result is the flag they all send. -/
structure Agreed (s : State c m G) : Prop where
  entered : ∀ x, s.left x ≤ (s.votes x).length
  decided : ∀ x k, k < s.left x → ∀ y, k < (s.votes y).length
  flags : ∀ x, ends (s.sent x) = (List.range (s.left x)).map s.failed

/-- The ends of iterations that a server has seen are the first of those its client has sent. -/
theorem Agreed.handled (h : s.Agreed) (p : c.Rank) (i : Fin m) :
    (s.servers p).endedBy i ≤ s.left (p, i) ∧
      ends ((s.servers p).handled i) = (List.range ((s.servers p).endedBy i)).map s.failed := by
  have hflags : ends ((s.servers p).handled i ++ s.queue (p, i)) = _ := h.flags (p, i)
  rw [ends_append] at hflags
  have hlen := congrArg List.length hflags
  rw [List.length_append, List.length_map, List.length_range] at hlen
  have hle : (s.servers p).endedBy i ≤ s.left (p, i) := by
    rw [Server.endedBy]
    omega
  refine ⟨hle, ?_⟩
  have htake := congrArg (List.take ((s.servers p).endedBy i)) hflags
  rw [← List.map_take, List.take_range, min_eq_left hle] at htake
  rw [← htake, Server.endedBy, List.take_left]

/-- The next end of an iteration in the queue carries the result of its round. -/
theorem Agreed.flag (h : s.Agreed) {p : c.Rank} {i : Fin m} {e : Bool} {rest : List (Sent G)}
    (hq : s.queue (p, i) = .endIteration e :: rest) :
    e = s.failed ((s.servers p).endedBy i) ∧ (s.servers p).endedBy i < s.left (p, i) := by
  have hflags : ends ((s.servers p).handled i ++ s.queue (p, i)) = _ := h.flags (p, i)
  have hsplit : (.endIteration e : Sent G) :: rest = [.endIteration e] ++ rest := rfl
  rw [hq, hsplit, ← List.append_assoc, ends_append, ends_append, ends_endIteration] at hflags
  have hlen := congrArg List.length hflags
  simp only [List.length_append, List.length_map, List.length_range, List.length_singleton] at hlen
  have hlt : (s.servers p).endedBy i < s.left (p, i) := by
    rw [Server.endedBy]
    omega
  have hget := congrArg (fun l => l[(s.servers p).endedBy i]?) hflags
  simp only [List.getElem?_map, List.getElem?_range hlt, Option.map_some, List.append_assoc] at hget
  have hfront : (ends ((s.servers p).handled i)).length ≤ (s.servers p).endedBy i := le_rfl
  rw [List.getElem?_append_right hfront, Server.endedBy, Nat.sub_self] at hget
  exact ⟨Option.some.inj hget, hlt⟩

structure Inv (s : State c m G) : Prop where
  agreed : s.Agreed
  counted : ∀ p, (s.servers p).Counted
  listening : ∀ p, (s.servers p).Listening (s.failed (s.servers p).lastIteration)
    (s.rounds (s.servers p).lastIteration)
  quiet : ∀ p, (s.servers p).Quiet
  logged : ∀ p, (s.servers p).Logged
  called : ∀ p, s.sync.called p ITERATION_SYNC = s.rounds (s.servers p).lastIteration
  ran : ∀ p, (s.sync.ran p).count ITERATION_SYNC = (s.servers p).updates.length
  barrier : SyncState.Accounted ITERATION_SYNC s.sync

/-- The condition: the end of an iteration is handled only when the server has
seen no more ends of that client than iterations have passed. -/
def Together (s : State c m G) : Action c m G → Prop
  | .handle p i _ => ∀ e rest, s.queue (p, i) = .endIteration e :: rest →
      (s.servers p).endedBy i = (s.servers p).lastIteration
  | _ => True

instance (s : State c m G) : (a : Action c m G) → Decidable (s.Together a)
  | .handle p i _ =>
    match h : s.queue (p, i) with
    | .endIteration e :: rest =>
      decidable_of_iff ((s.servers p).endedBy i = (s.servers p).lastIteration)
        ⟨fun he _ _ _ => he, fun hall => hall e rest h⟩
    | [] => .isTrue fun e rest he => by simp [h] at he
    | .connect :: _ | .stop :: _ | .event _ _ :: _ | .write _ :: _ | .commit _ :: _
    | .clear _ :: _ => .isTrue fun e rest he => by simp [h] at he
  | .call _ _ | .enter _ | .leave _ | .deliver _ _ _ _ => .isTrue trivial

/-! ## Steps of the clients -/

theorem Inv.call (h : s.Inv) {x : Peer c m} {client : Client G} {out : List (Sent G)}
    (hout : ends out = []) :
    Inv { s with
      clients := Function.update s.clients x client
      queue := Function.update s.queue x (s.queue x ++ out) } := by
  refine ⟨⟨h.agreed.entered, h.agreed.decided, fun y => ?_⟩, h.counted, h.listening, h.quiet,
    h.logged, h.called, h.ran, h.barrier⟩
  have hflags := h.agreed.flags y
  by_cases hy : y = x
  · subst hy
    simp only [sent, Function.update_self]
    rw [← List.append_assoc, ends_append, hout, List.append_nil]
    exact hflags
  · simp only [sent, Function.update_of_ne hy]
    exact hflags

/-- A vote does not change the result of a round in which everybody has voted. -/
theorem failed_enter {x : Peer c m} {v : Bool} {k : ℕ} (hk : ∀ y, k < (s.votes y).length) :
    failed { s with votes := Function.update s.votes x (s.votes x ++ [v]) } k = s.failed k := by
  have hsame : ∀ y, (Function.update s.votes x (s.votes x ++ [v]) y)[k]? = (s.votes y)[k]? := by
    intro y
    by_cases hy : y = x
    · subst hy
      rw [Function.update_self, List.getElem?_append_left (hk y)]
    · rw [Function.update_of_ne hy]
  simp only [failed, hsame]

theorem Inv.enter (h : s.Inv) (x : Peer c m) (v : Bool) :
    Inv { s with votes := Function.update s.votes x (s.votes x ++ [v]) } := by
  set s' : State c m G := { s with votes := Function.update s.votes x (s.votes x ++ [v]) } with hs'
  have hlen : ∀ y, (s.votes y).length ≤ (s'.votes y).length := by
    intro y
    by_cases hy : y = x
    · subst hy
      simp [hs']
    · simp [hs', hy]
  have hfailed : ∀ y k, k < s.left y → s'.failed k = s.failed k := fun y k hk =>
    failed_enter (h.agreed.decided y k hk)
  have hpast : ∀ p, ∀ k < (s.servers p).lastIteration, s'.failed k = s.failed k := by
    intro p k hk
    refine hfailed (p, x.2) k (hk.trans_le (le_trans ?_ (h.agreed.handled p x.2).1))
    rcases (h.counted p).between x.2 with he | he <;> omega
  refine ⟨⟨fun y => (h.agreed.entered y).trans (hlen y),
    fun y k hk z => (h.agreed.decided y k hk z).trans_le (hlen z), fun y => ?_⟩, h.counted,
    fun p => ?_, h.quiet, h.logged, fun p => ?_, h.ran, h.barrier⟩
  · rw [show ends (s'.sent y) = _ from h.agreed.flags y]
    exact List.map_congr_left fun k hk => (hfailed y k (List.mem_range.mp hk)).symm
  · show (s.servers p).Listening (s'.failed (s.servers p).lastIteration)
      (s'.rounds (s.servers p).lastIteration)
    rw [rounds_congr (hpast p)]
    rcases h.listening p with ⟨hn, harmed⟩ | hpending
    · refine .inl ⟨hn, fun i => ?_⟩
      rw [harmed i]
      by_cases he : (s.servers p).endedBy i = (s.servers p).lastIteration + 1
      · -- a client that has ended the iteration has returned from its reduction
        rw [hfailed (p, i) _ (lt_of_lt_of_le (by omega) (h.agreed.handled p i).1)]
      · simp [he]
    · exact .inr hpending
  · rw [rounds_congr (hpast p)]
    exact h.called p

theorem Inv.leave (h : s.Inv) {x : Peer c m} {client : Client G}
    (hx : (s.votes x).length = s.left x + 1) (hall : ∀ y, s.left x < (s.votes y).length) :
    Inv { s with
      clients := Function.update s.clients x client
      left := Function.update s.left x (s.left x + 1)
      queue := Function.update s.queue x (s.queue x ++ [.endIteration (s.failed (s.left x))]) } := by
  refine ⟨⟨fun y => ?_, fun y k hk z => ?_, fun y => ?_⟩, h.counted, h.listening, h.quiet,
    h.logged, h.called, h.ran, h.barrier⟩
  · by_cases hy : y = x
    · subst hy
      simpa using hx.ge
    · simpa [hy] using h.agreed.entered y
  · by_cases hy : y = x
    · subst hy
      simp only [Function.update_self] at hk
      rcases Nat.lt_succ_iff_lt_or_eq.mp hk with hk | rfl
      · exact h.agreed.decided y k hk z
      · exact hall z
    · simp only [Function.update_of_ne hy] at hk
      exact h.agreed.decided y k hk z
  · by_cases hy : y = x
    · subst hy
      have hflags := h.agreed.flags y
      rw [sent] at hflags
      simp only [sent, Function.update_self]
      rw [← List.append_assoc, ends_append, hflags, List.range_succ, List.map_append]
      rfl
    · simp only [sent, Function.update_of_ne hy]
      exact h.agreed.flags y

/-! ## Steps of the servers -/

/-- Handling a message sends none. -/
theorem sent_setServer {p : c.Rank} {i : Fin m} {op : Sent G} {rest : List (Sent G)}
    {sv : Server m G} {one : ℕ} {sync : Bool} (hq : s.queue (p, i) = op :: rest)
    (hcounts : (s.servers p).Counts i op sv one) (x : Peer c m) :
    ({ s with queue := Function.update s.queue (p, i) rest }.setServer p sv sync).sent x =
      s.sent x := by
  obtain ⟨q, j⟩ := x
  simp only [sent, setServer]
  by_cases hqp : q = p
  · subst hqp
    rw [Function.update_self, hcounts.handled]
    by_cases hji : j = i
    · -- the message has moved from the queue to the handled ones
      subst hji
      rw [Function.update_self, Function.update_self, hq, List.append_assoc]
      rfl
    · rw [Function.update_of_ne hji, Function.update_of_ne fun h => hji (Prod.mk.inj h).2]
  · rw [Function.update_of_ne hqp, Function.update_of_ne fun h => hqp (Prod.mk.inj h).1]

/-- A server's step, with what it makes of the other parties. -/
theorem Inv.setServer (h : s.Inv) {p : c.Rank} {i : Fin m} {op : Sent G} {rest : List (Sent G)}
    {sv : Server m G} {one : ℕ} {sync : Bool} (hq : s.queue (p, i) = op :: rest)
    (hcounts : (s.servers p).Counts i op sv one) (hcounted : sv.Counted)
    (hlistening : sv.Listening (s.failed sv.lastIteration) (s.rounds sv.lastIteration))
    (hquiet : sv.Quiet) (hlogged : sv.Logged)
    (hsync : s.rounds sv.lastIteration = s.rounds (s.servers p).lastIteration + sync.toNat) :
    Inv ({ s with queue := Function.update s.queue (p, i) rest }.setServer p sv sync) := by
  set s' := { s with queue := Function.update s.queue (p, i) rest }.setServer p sv sync with hs'
  have hself : s'.servers p = sv := Function.update_self _ _ _
  have hother : ∀ q, q ≠ p → s'.servers q = s.servers q := fun q hqp =>
    Function.update_of_ne hqp _ _
  have heach : ∀ P : c.Rank → Server m G → Prop, P p sv → (∀ q, P q (s.servers q)) →
      ∀ q, P q (s'.servers q) := fun P hp hall =>
    (Function.forall_update_iff s.servers P).mpr ⟨hp, fun q _ => hall q⟩
  have hran : s'.sync.ran = s.sync.ran := by
    cases sync <;> rfl
  refine ⟨⟨h.agreed.entered, h.agreed.decided, fun x => ?_⟩,
    heach (fun _ sv => sv.Counted) hcounted h.counted,
    heach (fun _ sv => sv.Listening (s.failed sv.lastIteration) (s.rounds sv.lastIteration))
      hlistening h.listening,
    heach (fun _ sv => sv.Quiet) hquiet h.quiet, heach (fun _ sv => sv.Logged) hlogged h.logged,
    fun q => ?_, ?_, ?_⟩
  · rw [hs', sent_setServer hq hcounts x]
    exact h.agreed.flags x
  · have hcalled := h.called q
    show s'.sync.called q ITERATION_SYNC = s.rounds (s'.servers q).lastIteration
    by_cases hqp : q = p
    · subst hqp
      rw [hself, hsync, ← hcalled]
      cases sync with
      | false => rfl
      | true => simp [hs', State.setServer, SyncState.sync]
    · rw [hother q hqp, ← hcalled]
      cases sync with
      | false => rfl
      | true => simp [hs', State.setServer, SyncState.sync, hqp]
  · rw [hran]
    refine heach (fun q sv => (s.sync.ran q).count ITERATION_SYNC = sv.updates.length) ?_ h.ran
    rw [hcounts.updates]
    exact h.ran p
  · cases sync with
    | false => exact h.barrier
    | true =>
      have hstep : SyncState.step (fun _ _ => true) s.sync (.sync p ITERATION_SYNC) =
          some (s.sync.sync p ITERATION_SYNC) := rfl
      exact h.barrier.step (fun _ => rfl) (fun he => absurd he (by decide)) hstep

/-- A header is handled. -/
theorem Inv.handle (h : s.Inv) {p : c.Rank} {i : Fin m} {op : Sent G} {rest : List (Sent G)}
    {source : ℤ} {gc sync : Bool} {sv : Server m G} (hq : s.queue (p, i) = op :: rest)
    (htogether : ∀ e, op = .endIteration e → (s.servers p).endedBy i = (s.servers p).lastIteration)
    (harmed : (s.servers p).armed i ≠ 0)
    (hx : ((s.servers p).complete i).onHeader source i gc op = some (sv, sync)) :
    Inv ({ s with queue := Function.update s.queue (p, i) rest }.setServer p sv sync) := by
  rcases Server.onHeader_cases hx with
    ⟨hop, hcounts, rfl, hlocks, hlast, herrors⟩ | ⟨e, rfl, hcounts, hend⟩
  · -- no end of an iteration
    obtain ⟨hcounted, hlistening⟩ := hcounts.plain (h.counted p) (h.listening p) harmed
      (ends_singleton hop) hlocks hlast
    refine h.setServer hq hcounts hcounted (hlast ▸ hlistening)
      (hcounts.quiet (h.quiet p) fun hone => absurd hone one_ne_zero) ?_ (by rw [hlast]; rfl)
    rw [Server.Logged, hcounts.updates, herrors, hlast]
    exact h.logged p
  · have hended := htogether e rfl
    have hflag : e = s.failed (s.servers p).lastIteration := hended ▸ (h.agreed.flag hq).1
    have hlistening := h.listening p
    rw [← hflag] at hlistening
    have hquiet : sv.Quiet := hcounts.quiet (h.quiet p) fun hone => by
      cases e with
      | false => rfl
      | true => exact absurd hone one_ne_zero
    rcases hend with ⟨hm, rfl, hlocks, hlast, herrors⟩ | ⟨hm, rfl, hlocks, hlast, herrors⟩
    · -- other clients are still missing
      obtain ⟨hcounted, hlistening⟩ := hcounts.counted (h.counted p) hlistening harmed hended hm
        hlocks hlast
      rw [hflag] at hlistening
      refine h.setServer hq hcounts hcounted (hlast ▸ hlistening) hquiet ?_ (by rw [hlast]; rfl)
      rw [Server.Logged, hcounts.updates, herrors, hlast]
      exact h.logged p
    · -- the last client of the iteration
      have hrounds : s.rounds sv.lastIteration =
          s.rounds (s.servers p).lastIteration + (!e).toNat := by
        rw [hlast, rounds_succ, ← hflag]
      obtain ⟨hcounted, hlistening⟩ := hcounts.full (h.counted p) hlistening harmed hended hm
        hlocks hlast (s.failed sv.lastIteration)
      refine h.setServer hq hcounts hcounted (hrounds ▸ hlistening) hquiet ⟨?_, ?_⟩ hrounds
      · intro x hx
        rw [hcounts.updates] at hx
        have := (h.logged p).1 x hx
        rw [hlast]
        push_cast
        omega
      · intro k hk
        rw [herrors, List.mem_append] at hk
        rw [hlast]
        push_cast
        rcases hk with hk | hk
        · have := (h.logged p).2 k hk
          omega
        · cases e with
          | false => exact absurd hk List.not_mem_nil
          | true => rw [List.mem_singleton.mp hk]

/-- What a delivery does for a tag that has a callback: it runs it at most once. -/
theorem ran_deliver {sync sync' : SyncState c} {p source : c.Rank} {message : Message}
    (hs : sync.deliver p (fun _ tag => tag = ITERATION_SYNC) message source = some sync') :
    (∀ q, q ≠ p → sync'.ran q = sync.ran q) ∧
      ((sync'.ran p).count ITERATION_SYNC = (sync.ran p).count ITERATION_SYNC ∨
        (sync'.ran p).count ITERATION_SYNC = (sync.ran p).count ITERATION_SYNC + 1) := by
  unfold SyncState.deliver at hs
  split_ifs at hs
  obtain ⟨⟨info, net⟩, -, rfl⟩ := Option.map_eq_some_iff.mp hs
  refine ⟨fun q hq => Function.update_of_ne hq _ _, ?_⟩
  simp only [SyncState.log_ran, Function.update_self, List.count_append]
  unfold MPI2Reactor.callback
  split_ifs with hwave
  · simp only [SyncState.after, SyncState.send_ran, SyncState.setReactor_ran,
      SyncState.withNet_ran, Option.toList_some, List.count_singleton]
    split_ifs
    · exact .inr rfl
    · exact .inl rfl
  · exact .inl rfl

theorem barrier_deliver {sync sync' : SyncState c} {p source : c.Rank} {message : Message}
    (h : SyncState.Accounted ITERATION_SYNC sync)
    (hs : sync.deliver p (fun _ tag => tag = ITERATION_SYNC) message source = some sync') :
    SyncState.Accounted ITERATION_SYNC sync' := by
  have hstep : SyncState.step (fun _ tag => tag = ITERATION_SYNC) sync
      (.deliver p message source) = some sync' := hs
  exact h.step (fun _ => decide_eq_true (Eq.refl ITERATION_SYNC))
    (fun he => absurd he (by decide)) hstep

/-- The barrier: a server has called `Sync` for a callback that runs. -/
theorem Inv.pending (h : s.Inv) {p source : c.Rank} {message : Message} {sync : SyncState c}
    (hs : s.sync.deliver p (fun _ tag => tag = ITERATION_SYNC) message source = some sync)
    (hne : (sync.ran p).count ITERATION_SYNC ≠ (s.sync.ran p).count ITERATION_SYNC) :
    (s.servers p).updates.length < s.rounds (s.servers p).lastIteration := by
  have hle := (barrier_deliver h.barrier hs).barrier p p
  have hcalled : sync.called p ITERATION_SYNC = s.sync.called p ITERATION_SYNC :=
    (SyncState.deliver_queued (fun he => absurd he (by decide)) hs p).2
  rw [(ran_deliver hs).2.resolve_left hne, h.ran p, hcalled, h.called p] at hle
  exact hle

theorem Inv.deliver (h : s.Inv) {p source : c.Rank} {message : Message} {sync : SyncState c}
    (hs : s.sync.deliver p (fun _ tag => tag = ITERATION_SYNC) message source = some sync) :
    ((sync.ran p).count ITERATION_SYNC = (s.sync.ran p).count ITERATION_SYNC →
        Inv { s with sync := sync }) ∧
      ∀ gc, (sync.ran p).count ITERATION_SYNC ≠ (s.sync.ran p).count ITERATION_SYNC →
        Inv { s with
          sync := sync
          servers := Function.update s.servers p ((s.servers p).endOfIterationCallback gc) } := by
  have hbarrier := barrier_deliver h.barrier hs
  have hcalled : ∀ q, sync.called q ITERATION_SYNC = s.rounds (s.servers q).lastIteration :=
    fun q => (SyncState.deliver_queued (fun he => absurd he (by decide)) hs q).2.trans (h.called q)
  obtain ⟨hother, hran⟩ := ran_deliver hs
  refine ⟨fun heq => ⟨⟨h.agreed.entered, h.agreed.decided, h.agreed.flags⟩, h.counted, h.listening,
    h.quiet, h.logged, hcalled, fun q => ?_, hbarrier⟩, fun gc hne => ?_⟩
  · by_cases hq : q = p
    · subst hq
      exact heq.trans (h.ran q)
    · rw [hother q hq]
      exact h.ran q
  · have hone : (sync.ran p).count ITERATION_SYNC = (s.servers p).updates.length + 1 := by
      rw [← h.ran p]
      exact hran.resolve_left hne
    obtain ⟨hcounted, hlistening, hquiet, hlogged⟩ := Server.endOfIterationCallback_spec
      (h.counted p) (h.listening p) (h.pending hs hne) (h.logged p) gc
    set sv := (s.servers p).endOfIterationCallback gc with hsv
    have heach : ∀ P : c.Rank → Server m G → Prop, P p sv → (∀ q, q ≠ p → P q (s.servers q)) →
        ∀ q, P q (Function.update s.servers p sv q) := fun P hp hall =>
      (Function.forall_update_iff s.servers P).mpr ⟨hp, hall⟩
    refine ⟨⟨h.agreed.entered, h.agreed.decided, fun x => ?_⟩,
      heach (fun _ sv => sv.Counted) hcounted fun q _ => h.counted q,
      heach (fun _ sv => sv.Listening (s.failed sv.lastIteration) (s.rounds sv.lastIteration))
        hlistening fun q _ => h.listening q,
      heach (fun _ sv => sv.Quiet) hquiet fun q _ => h.quiet q,
      heach (fun _ sv => sv.Logged) hlogged fun q _ => h.logged q,
      heach (fun q sv => sync.called q ITERATION_SYNC = s.rounds sv.lastIteration)
        (hcalled p) fun q _ => hcalled q,
      heach (fun q sv => (sync.ran q).count ITERATION_SYNC = sv.updates.length) ?_ fun q hq => ?_,
      hbarrier⟩
    · exact heach (fun q sv => ends (sv.handled x.2 ++ s.queue (q, x.2)) =
        (List.range (s.left (q, x.2))).map s.failed) (h.agreed.flags (p, x.2))
        (fun q _ => h.agreed.flags (q, x.2)) x.1
    · rw [hone, hsv, Server.endOfIterationCallback, List.length_append]
      rfl
    · rw [hother q hq]
      exact h.ran q

theorem Inv.step (h : s.Inv) {a : Action c m G} (hg : s.Together a) (hs : s.step a = some s') :
    s'.Inv := by
  cases a with
  | call x req =>
    simp only [State.step] at hs
    split_ifs at hs
    obtain rfl := Option.some.inj hs
    exact h.call (ends_request _ req)
  | enter x =>
    simp only [State.step] at hs
    split_ifs at hs
    obtain rfl := Option.some.inj hs
    exact h.enter x _
  | leave x =>
    simp only [State.step] at hs
    split_ifs at hs with hx
    obtain rfl := Option.some.inj hs
    exact h.leave hx.1 hx.2
  | handle p i gc =>
    cases hq : s.queue (p, i) with
    | nil => simp [State.step, hq] at hs
    | cons op rest =>
      simp only [State.step, hq] at hs
      split_ifs at hs with harmed
      obtain ⟨⟨sv, sync⟩, hx, rfl⟩ := Option.map_eq_some_iff.mp hs
      exact h.handle hq (fun e he => hg e rest (he ▸ hq)) (fun h0 => harmed (.inl h0)) hx
  | deliver p message source gc =>
    simp only [State.step] at hs
    split_ifs at hs
    obtain ⟨sync, hsync, hs'⟩ := Option.map_eq_some_iff.mp hs
    obtain ⟨hsame, hcallback⟩ := h.deliver hsync
    split_ifs at hs' with hran
    · exact hs' ▸ hsame hran
    · exact hs' ▸ hcallback gc hran

theorem inv_initial (config : ℤ → Option (Bool × Layout)) (source : Peer c m ↪ ℤ)
    (numDomains : ℤ) : (initial config source numDomains : State c m G).Inv := by
  have hnot : ∀ i : Fin m, ¬ (Server.run config : Server m G).endedBy i = 0 + 1 := fun _ =>
    zero_ne_one
  refine ⟨⟨fun _ => le_rfl, fun _ k hk => absurd hk (Nat.not_lt_zero k), fun _ => rfl⟩,
    fun _ => ⟨fun _ => .inl rfl, ?_, fun hm => hm⟩,
    fun _ => .inl ⟨rfl, fun i => (if_neg fun h => hnot i h.1).symm⟩,
    fun _ _ h => absurd h one_ne_zero, fun _ => ⟨fun x hx => ?_, fun k hk => ?_⟩, fun _ => rfl,
    fun _ => rfl, SyncState.accounted_initial ITERATION_SYNC⟩
  · exact (Finset.card_eq_zero.mpr (Finset.filter_eq_empty_iff.mpr fun i _ => hnot i)).symm
  · exact absurd hx List.not_mem_nil
  · exact absurd hk List.not_mem_nil

/-! ## Completeness -/

/-- A server is in an iteration, has processed one or has cleaned one up only if
each of its clients has ended all that come before it. -/
def Complete (s : State c m G) : Prop :=
  ∀ p i, (s.servers p).lastIteration ≤ (s.servers p).endedBy i ∧
    (∀ x ∈ (s.servers p).updates, x.1 + 1 ≤ ((s.servers p).endedBy i : ℤ)) ∧
      ∀ k ∈ (s.servers p).errors, k + 1 ≤ ((s.servers p).endedBy i : ℤ)

instance (s : State c m G) : Decidable s.Complete :=
  inferInstanceAs (Decidable (∀ _ _, _ ∧ _ ∧ _))

theorem Inv.complete (h : s.Inv) : s.Complete := by
  intro p i
  have hle : (s.servers p).lastIteration ≤ (s.servers p).endedBy i := by
    rcases (h.counted p).between i with he | he <;> omega
  refine ⟨hle, fun x hx => ?_, fun k hk => ?_⟩
  · exact ((h.logged p).1 x hx).trans (by exact_mod_cast hle)
  · exact ((h.logged p).2 k hk).trans (by exact_mod_cast hle)

/-- A server has seen two ends more of some client than iterations have passed. -/
def Overtaken (s : State c m G) : Prop :=
  ∃ p i, (s.servers p).lastIteration + 2 ≤ (s.servers p).endedBy i

theorem tallied_step {a : Action c m G} (h : ∀ p, (s.servers p).Tallied) (hs : s.step a = some s')
    (p : c.Rank) : (s'.servers p).Tallied ∧ (s.servers p).Advances (s'.servers p) := by
  rcases servers_step hs p with hsame |
    ⟨i, gc, op, rest, sync, rfl, -, -, hx⟩ | ⟨message, source, gc, sync, -, -, -, -, hsv⟩
  · rw [hsame]
    exact ⟨h p, fun _ => le_rfl, .inl rfl⟩
  · obtain ⟨ht, hadv, -⟩ := Server.onHeader_tallied (h p) hx
    exact ⟨ht, hadv⟩
  · rw [hsv]
    exact ⟨⟨(h p).sum, (h p).short⟩, fun _ => le_rfl, .inl rfl⟩

/-- A client that is ahead of the count stays ahead: only at the expense of
another one can the server go on. -/
theorem ahead_of_advances {sv sv' : Server m G} (hadv : sv.Advances sv') (ht : sv'.Tallied)
    (hle : ∀ j, sv'.lastIteration ≤ sv'.endedBy j) {i : Fin m}
    (hi : sv.lastIteration + 2 ≤ sv'.endedBy i) : sv'.lastIteration + 2 ≤ sv'.endedBy i := by
  rcases hadv.last with hlast | ⟨hlast, hlocks⟩
  · rw [hlast]
    exact hi
  · have := ht.endedBy_eq hlocks hle i
    omega

theorem overtaken_of_not_together {a : Action c m G} (ht : ∀ p, (s.servers p).Tallied)
    (hc : s.Complete) (hnot : ¬ s.Together a) (hs : s.step a = some s') (hc' : s'.Complete) :
    s'.Overtaken := by
  cases a with
  | handle p i gc =>
    simp only [Together, not_forall] at hnot
    obtain ⟨e, rest, hq, hne⟩ := hnot
    have hahead : (s.servers p).lastIteration + 1 ≤ (s.servers p).endedBy i :=
      (hc p i).1.lt_of_ne' hne
    obtain ⟨ht', hadv⟩ := tallied_step ht hs p
    refine ⟨p, i, ahead_of_advances hadv ht' (fun j => (hc' p j).1) ?_⟩
    simp only [step, hq] at hs
    split_ifs at hs
    obtain ⟨⟨sv, sync⟩, hx, rfl⟩ := Option.map_eq_some_iff.mp hs
    have hself : (setServer { s with queue := Function.update s.queue (p, i) rest } p sv
        sync).servers p = sv := Function.update_self _ _ _
    rw [hself, (Server.onHeader_tallied (ht p) hx).2.2, ends_endIteration, List.length_singleton]
    omega
  | _ => exact absurd trivial hnot

theorem Overtaken.step {a : Action c m G} (ho : s.Overtaken) (ht : ∀ p, (s.servers p).Tallied)
    (hs : s.step a = some s') (hc' : s'.Complete) : s'.Overtaken := by
  obtain ⟨p, i, hi⟩ := ho
  obtain ⟨ht', hadv⟩ := tallied_step ht hs p
  exact ⟨p, i, ahead_of_advances hadv ht' (fun j => (hc' p j).1) (hi.trans (hadv.endedBy_le i))⟩

theorem tallied_initial (config : ℤ → Option (Bool × Layout)) (source : Peer c m ↪ ℤ)
    (numDomains : ℤ) (p : c.Rank) :
    ((initial config source numDomains : State c m G).servers p).Tallied := by
  refine ⟨?_, fun hm => hm⟩
  show ∑ _i : Fin m, 0 = m * 0 + 0
  simp

/-- Iterations are complete throughout a run in which no server counts a client
twice for one iteration. For a run that leaves no server in the middle of a
count the condition is exact. -/
theorem complete_iff_together (config : ℤ → Option (Bool × Layout)) (source : Peer c m ↪ ℤ)
    (numDomains : ℤ) {as : List (Action c m G)}
    (hr : StepSystem.run step (initial config source numDomains) as = some s) :
    (StepSystem.Guarded step Together (initial config source numDomains) as →
        StepSystem.Always step Complete (initial config source numDomains) as) ∧
      ((∀ p, (s.servers p).locks = 0) →
        StepSystem.Always step Complete (initial config source numDomains) as →
          StepSystem.Guarded step Together (initial config source numDomains) as) := by
  constructor
  · exact StepSystem.Guarded.always (fun _ _ _ hinv hg hs => hinv.step hg hs)
      (fun _ hinv => hinv.complete) (inv_initial config source numDomains)
  · intro hlocks halways
    have htallied : ∀ p, (s.servers p).Tallied :=
      StepSystem.run_invariant (I := fun s => ∀ p, (s.servers p).Tallied)
        (fun _ _ _ ht hs p => (tallied_step ht hs p).1)
        (tallied_initial config source numDomains) hr
    have hcomplete : s.Complete := halways.last hr
    refine (halways.guarded (J := fun s => ∀ p, (s.servers p).Tallied) (D := Overtaken)
      (fun _ _ _ ht hs p => (tallied_step ht hs p).1)
      (fun _ _ _ ht hc hnot hs hc' => overtaken_of_not_together ht hc hnot hs hc')
      (fun _ _ _ ht ho hs hc' => ho.step ht hs hc')
      (tallied_initial config source numDomains) hr ?_).1
    rintro ⟨p, i, hi⟩
    have := (htallied p).endedBy_eq (hlocks p) (fun j => (hcomplete p j).1) i
    omega

/-- The ranks of all clients. -/
def rank : Peer c m ↪ ℤ :=
  (finProdFinEquiv.toEmbedding.trans Fin.valEmbedding).trans Nat.castEmbedding

/-- One server with two clients. -/
abbrev Two := State SyncState.alone 2 Unit

def twoInitial : Two := initial Variables.oneVariable rank 1

def only : SyncState.alone.Rank := SyncState.alone.leader

def clientA : Peer SyncState.alone 2 := (only, 0)

def clientB : Peer SyncState.alone 2 := (only, 1)

/-- Both clients end an iteration. -/
def oneIteration : List (Action SyncState.alone 2 Unit) :=
  [.enter clientA, .enter clientB, .leave clientA, .leave clientB, .handle only clientA.2 false,
    .handle only clientB.2 false, .deliver only .SYNC_WAVE only false]

theorem complete_oneIteration : ∃ s, StepSystem.run step twoInitial oneIteration = some s ∧
    (∀ p, (s.servers p).locks = 0) ∧
      (StepSystem.Always step Complete twoInitial oneIteration ↔
        StepSystem.Guarded step Together twoInitial oneIteration) := by
  obtain ⟨s, hs⟩ := Option.isSome_iff_exists.mp
    (by decide : (StepSystem.run step twoInitial oneIteration).isSome)
  have hlocks : ∀ p, (s.servers p).locks = 0 := by
    have hall : ((StepSystem.run step twoInitial oneIteration).all fun s =>
        decide (∀ p, (s.servers p).locks = 0)) = true := by decide
    rw [hs] at hall
    exact of_decide_eq_true hall
  obtain ⟨hsound, hexact⟩ := complete_iff_together Variables.oneVariable rank 1 hs
  exact ⟨s, hs, hlocks, hexact hlocks, hsound⟩

/-- The first client has an error in its first iteration and none in the second.
The server handles both ends before it handles anything of the other client. -/
def earlyEnd : List (Action SyncState.alone 2 Unit) :=
  [.call clientA (.write 0 0 (some ⟨fun _ => none, fun _ => none, fun _ _ => none⟩)),
    .enter clientA, .enter clientB, .leave clientA, .leave clientB,
    .enter clientA, .enter clientB, .leave clientA,
    .handle only clientA.2 false, .handle only clientA.2 false]

theorem early_end_incomplete : ¬ ∀ (m : ℕ) (source : Peer SyncState.alone m ↪ ℤ)
    (as : List (Action SyncState.alone m Unit)),
    StepSystem.Always step Complete (initial Variables.oneVariable source 1) as := by
  intro hall
  exact absurd (hall 2 rank earlyEnd) (by decide)

end State
end Damaris.Iteration
