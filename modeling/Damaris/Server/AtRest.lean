import Mathlib.Tactic
import Damaris.Comm.SyncProgress
import Damaris.Server.Cut

/-!
# The servers come to rest

Whatever a server does leaves less for the servers to do. When nothing is left,
every server has processed each iteration that the clients have ended, in order,
and has stopped if all of its clients have asked for it.
-/
set_option linter.unusedSectionVars false

namespace Damaris.Iteration

open Damaris.Data Damaris.Msg Damaris.Comm

variable {c : Topology} {m : ℕ} {G : Type*} {config : ℤ → Option (Bool × Layout)}

def Action.ByServer : Action c m G → Prop
  | .handle _ _ _ | .deliver _ _ _ _ => True
  | .call _ _ | .enter _ | .leave _ => False

instance : (a : Action c m G) → Decidable a.ByServer
  | .handle _ _ _ | .deliver _ _ _ _ => .isTrue trivial
  | .call _ _ | .enter _ | .leave _ => .isFalse id

namespace State

variable {s s' : State c m G}

/-- A message of a client is worth three steps: handling it, and the part of its
server in a synchronisation. -/
def work (s : State c m G) : ℕ := 3 * ∑ x, (s.queue x).length + s.sync.work ITERATION_SYNC

/-- The invariant, with the servers one synchronisation at a time. -/
structure Paced (s : State c m G) : Prop where
  base : s.Inv
  only : SyncState.Only ITERATION_SYNC s.sync

/-- A server has entered the barrier once for every iteration without errors. -/
theorem Paced.entries (h : s.Paced) (p : c.Rank) :
    (s.servers p).updates.length +
        (if (SyncState.view ITERATION_SYNC s.sync p).waiting then 1 else 0) =
      s.rounds (s.servers p).lastIteration := by
  have hqueued : SyncState.queued ITERATION_SYNC s.sync p = 0 := by
    rw [SyncState.queued, h.only.pending]
    rfl
  have hcalled := h.base.barrier.called_eq p
  rw [h.base.called p, hqueued, add_zero] at hcalled
  rw [← h.base.ran p]
  exact_mod_cast hcalled.symm

/-- A server that listens to a client has no `Sync` outstanding. -/
theorem Paced.free (h : s.Paced) {p : c.Rank} {i : Fin m} (harmed : (s.servers p).armed i ≠ 0) :
    ITERATION_SYNC ∉ (s.sync.reactors p).syncTags := by
  obtain ⟨hn, -⟩ := (h.base.listening p).armed_eq_one harmed
  have hentries := h.entries p
  intro hmem
  have hwaiting : (SyncState.view ITERATION_SYNC s.sync p).waiting = true := decide_eq_true hmem
  rw [if_pos hwaiting] at hentries
  omega

theorem sum_queue (queue : Peer c m → List (Sent G)) (x : Peer c m) (ops : List (Sent G)) :
    ∑ y, (Function.update queue x ops y).length + (queue x).length = ∑ y, (queue y).length + ops.length := by
  rw [← Finset.add_sum_erase _ _ (Finset.mem_univ x), ← Finset.add_sum_erase _ _ (Finset.mem_univ x),
    Function.update_self]
  have hothers : ∀ y ∈ Finset.univ.erase x, (Function.update queue x ops y).length =
      (queue y).length := by
    intro y hy
    rw [Function.update_of_ne (Finset.ne_of_mem_erase hy)]
  rw [Finset.sum_congr rfl hothers]
  omega

/-- A server that handles a message calls `Sync` at most once, when it is free to. -/
theorem Paced.setServer (h : s.Paced) {p : c.Rank} {i : Fin m} {op : Sent G} {rest : List (Sent G)}
    (sv : Server m G) (sync : Bool) (hq : s.queue (p, i) = op :: rest)
    (harmed : (s.servers p).armed i ≠ 0) :
    SyncState.Only ITERATION_SYNC
        ({ s with queue := Function.update s.queue (p, i) rest }.setServer p sv sync).sync ∧
      ({ s with queue := Function.update s.queue (p, i) rest }.setServer p sv sync).work < s.work := by
  have hsum := sum_queue s.queue (p, i) rest
  rw [hq, List.length_cons] at hsum
  cases sync with
  | false =>
    refine ⟨h.only, ?_⟩
    show 3 * ∑ y, (Function.update s.queue (p, i) rest y).length + s.sync.work ITERATION_SYNC < s.work
    rw [work]
    omega
  | true =>
    have hfree := h.free harmed
    refine ⟨h.only.sync hfree, ?_⟩
    have hle := SyncState.work_sync_le hfree
    show 3 * ∑ y, (Function.update s.queue (p, i) rest y).length +
      (s.sync.sync p ITERATION_SYNC).work ITERATION_SYNC < s.work
    rw [work]
    omega

theorem Paced.step {a : Action c m G} (h : s.Paced) (hg : s.Together a) (hs : s.step a = some s') :
    s'.Paced ∧ (a.ByServer → s'.work < s.work) := by
  have hbase := h.base.step hg hs
  cases a with
  | call x req =>
    simp only [State.step] at hs
    split_ifs at hs
    obtain rfl := Option.some.inj hs
    exact ⟨⟨hbase, h.only⟩, fun hby => absurd hby id⟩
  | enter x =>
    simp only [State.step] at hs
    split_ifs at hs
    obtain rfl := Option.some.inj hs
    exact ⟨⟨hbase, h.only⟩, fun hby => absurd hby id⟩
  | leave x =>
    simp only [State.step] at hs
    split_ifs at hs
    obtain rfl := Option.some.inj hs
    exact ⟨⟨hbase, h.only⟩, fun hby => absurd hby id⟩
  | handle p i gc =>
    cases hq : s.queue (p, i) with
    | nil => simp [State.step, hq] at hs
    | cons op rest =>
      simp only [State.step, hq] at hs
      split_ifs at hs with harmed
      obtain ⟨⟨sv, sync⟩, -, rfl⟩ := Option.map_eq_some_iff.mp hs
      obtain ⟨honly, hlt⟩ := h.setServer sv sync hq fun h0 => harmed (.inl h0)
      exact ⟨⟨hbase, honly⟩, fun _ => hlt⟩
  | deliver p message source gc =>
    simp only [State.step] at hs
    split_ifs at hs
    obtain ⟨sync, hsync, hs'⟩ := Option.map_eq_some_iff.mp hs
    have honly := h.only.deliver hsync
    have hlt := h.only.work_deliver h.base.barrier (decide_eq_true (Eq.refl ITERATION_SYNC)) hsync
    have hwork : 3 * ∑ x, (s.queue x).length + sync.work ITERATION_SYNC < s.work := by
      rw [work]
      omega
    split_ifs at hs'
    · subst hs'
      exact ⟨⟨hbase, honly⟩, fun _ => hwork⟩
    · subst hs'
      exact ⟨⟨hbase, honly⟩, fun _ => hwork⟩

theorem paced_initial (config : ℤ → Option (Bool × Layout)) (source : Peer c m ↪ ℤ)
    (numDomains : ℤ) : (initial config source numDomains : State c m G).Paced :=
  ⟨inv_initial config source numDomains, SyncState.only_initial ITERATION_SYNC⟩

end State

/-! ## Stopping -/

theorem type_eq_stop {op : Sent G} : op.type = .STOP ↔ op = .stop := by
  cases op with
  | endIteration e => cases e <;> exact ⟨nofun, nofun⟩
  | event bcast ev => cases bcast <;> exact ⟨nofun, nofun⟩
  | stop => exact ⟨fun _ => rfl, fun _ => rfl⟩
  | _ => exact ⟨nofun, nofun⟩

instance (ops : List (Sent G)) : Decidable (.stop ∈ ops) :=
  decidable_of_iff (∃ op ∈ ops, op.type = .STOP) (by simp [type_eq_stop])

namespace Server

variable {sv sv' : Server m G} {i : Fin m}

/-- The clients that have asked the server to stop, which it does for the last of them. -/
structure Closing (sv : Server m G) : Prop where
  requested : sv.stopped = false → ∀ i, i ∈ sv.stopRequests ↔ .stop ∈ sv.handled i
  short : sv.stopped = false → sv.stopRequests.card < m
  stopped : sv.stopped = true → ∀ i, .stop ∈ sv.handled i

theorem onHeader_stop {source : ℤ} {gc sync : Bool} {op : Sent G}
    (h : (sv.complete i).onHeader source i gc op = some (sv', sync)) :
    (op ≠ .stop ∧ sv'.stopRequests = sv.stopRequests ∧ sv'.stopped = sv.stopped) ∨
      op = .stop ∧ if (insert i sv.stopRequests).card = m then sv'.stopped = true
        else sv'.stopRequests = insert i sv.stopRequests ∧ sv'.stopped = sv.stopped := by
  obtain ⟨vs, -, hx⟩ := Option.map_eq_some_iff.mp h
  obtain ⟨rfl, -⟩ := Prod.mk.inj hx
  cases op with
  | endIteration e =>
    refine .inl ⟨by simp, ?_⟩
    by_cases hfull : sv.locks + 1 = m <;> cases e <;>
      simp [startNextIteration, complete, asyncRecv, onError, Operation.type, hfull]
  | stop =>
    refine .inr ⟨rfl, ?_⟩
    by_cases hall : (insert i sv.stopRequests).card = m <;>
      simp [onStop, complete, asyncRecv, Operation.type, hall]
  | event bcast ev =>
    refine .inl ⟨by simp, ?_⟩
    cases bcast <;> exact ⟨rfl, rfl⟩
  | _ => exact .inl ⟨by simp, rfl, rfl⟩

theorem Closing.onHeader {source : ℤ} {gc sync : Bool} {op : Sent G} (hc : sv.Closing)
    (hrun : sv.stopped = false) (h : (sv.complete i).onHeader source i gc op = some (sv', sync)) :
    sv'.Closing := by
  obtain ⟨one, hcounts, -⟩ := onHeader_counts h
  have hhandled : ∀ j, .stop ∈ sv'.handled j ↔ .stop ∈ sv.handled j ∨ j = i ∧ op = .stop := by
    intro j
    rw [hcounts.handled]
    by_cases hj : j = i
    · subst hj
      rw [Function.update_self, List.mem_append, List.mem_singleton, eq_comm (b := op)]
      simp
    · rw [Function.update_of_ne hj]
      simp [hj]
  rcases onHeader_stop h with ⟨hop, hrequests, hstopped⟩ | ⟨rfl, hcase⟩
  · have hsame : ∀ j, .stop ∈ sv'.handled j ↔ .stop ∈ sv.handled j := fun j =>
      (hhandled j).trans (or_iff_left fun hx => hop hx.2)
    refine ⟨fun hs j => ?_, fun hs => ?_, fun hs => ?_⟩
    · rw [hrequests, hsame]
      exact hc.requested hrun j
    · rw [hrequests]
      exact hc.short hrun
    · rw [hstopped, hrun] at hs
      cases hs
  · have hinsert : ∀ j, j ∈ insert i sv.stopRequests ↔ .stop ∈ sv'.handled j := by
      intro j
      rw [Finset.mem_insert, hc.requested hrun j, hhandled j]
      simp [or_comm]
    split_ifs at hcase with hall
    · refine ⟨fun hs => absurd (hs.symm.trans hcase) nofun, fun hs => absurd (hs.symm.trans hcase) nofun,
        fun _ j => (hinsert j).mp ?_⟩
      rw [Finset.eq_univ_of_card _ (hall.trans (Fintype.card_fin m).symm)]
      exact Finset.mem_univ j
    · obtain ⟨hrequests, hstopped⟩ := hcase
      have hle := Finset.card_le_univ (insert i sv.stopRequests)
      rw [Fintype.card_fin] at hle
      refine ⟨fun _ j => hrequests ▸ hinsert j, fun _ => hrequests ▸ lt_of_le_of_ne hle hall, fun hs => ?_⟩
      rw [hstopped, hrun] at hs
      cases hs

end Server

namespace State

variable {s s' : State c m G}

/-- The condition: no client reports an error, and a client that has asked its
server to stop calls nothing any more. -/
def Orderly (s : State c m G) : Action c m G → Prop
  | .call x _ => .stop ∉ s.sent x
  | .enter x => (s.clients x).errorOccured = false ∧ .stop ∉ s.sent x
  | _ => True

instance (s : State c m G) : (a : Action c m G) → Decidable (s.Orderly a)
  | .call x _ => inferInstanceAs (Decidable (.stop ∉ s.sent x))
  | .enter x => inferInstanceAs (Decidable ((s.clients x).errorOccured = false ∧ .stop ∉ s.sent x))
  | .leave _ | .handle _ _ _ | .deliver _ _ _ _ => .isTrue trivial

theorem Orderly.errorless {a : Action c m G} (h : s.Orderly a) : s.Errorless a := by
  cases a with
  | enter x => exact h.1
  | _ => exact trivial

/-- A request to stop is the last message, if it is among them. -/
def StopsLast (ops : List (Sent G)) : Prop := ∀ pre post, ops = pre ++ .stop :: post → post = []

theorem StopsLast.append {ops : List (Sent G)} (hnot : .stop ∉ ops) {op : Sent G} :
    StopsLast (ops ++ [op]) := by
  intro pre post h
  rcases List.append_eq_append_iff.mp h with ⟨as, rfl, hop⟩ | ⟨bs, rfl, hpost⟩
  · have hlen := congrArg List.length hop
    simp only [List.length_append, List.length_cons, List.length_nil] at hlen
    exact List.eq_nil_of_length_eq_zero (by omega)
  · cases bs with
    | nil => exact (List.cons.inj hpost).2
    | cons b bs =>
      obtain ⟨rfl, -⟩ := List.cons.inj hpost
      exact absurd (List.mem_append_right pre List.mem_cons_self) hnot

/-- The invariant of a run whose clients stop in order. -/
structure Closing (s : State c m G) : Prop where
  last : ∀ x, StopsLast (s.sent x)
  voted : ∀ x, .stop ∈ s.sent x → (s.votes x).length = s.left x
  servers : ∀ p, (s.servers p).Closing

/-- What a step has to add up to: it sends one message at most, of a client that has not stopped. -/
theorem Closing.next (h : s.Closing) (hservers : ∀ p, (s'.servers p).Closing)
    (hsent : ∀ y, s'.sent y = s.sent y ∨ .stop ∉ s.sent y ∧ ∃ op, s'.sent y = s.sent y ++ [op])
    (hvoted : ∀ y, .stop ∈ s'.sent y → (s'.votes y).length = s'.left y) : s'.Closing := by
  refine ⟨fun y => ?_, hvoted, hservers⟩
  rcases hsent y with hsame | ⟨hnot, op, hop⟩
  · rw [hsame]
    exact h.last y
  · rw [hop]
    exact StopsLast.append hnot

theorem Closing.step {a : Action c m G} (h : s.Closing) (hg : s.Orderly a)
    (hs : s.step a = some s') : s'.Closing := by
  cases a with
  | call x req =>
    simp only [State.step] at hs
    split_ifs at hs with hvotes
    obtain rfl := Option.some.inj hs
    have hnot : .stop ∉ s.sent x := hg
    have hother : ∀ y, y ≠ x → sent { s with
        clients := Function.update s.clients x ((s.clients x).request req).1
        queue := Function.update s.queue x (s.queue x ++ ((s.clients x).request req).2.toList) } y =
          s.sent y := by
      intro y hy
      simp only [sent, Function.update_of_ne hy]
    refine h.next h.servers (fun y => ?_) (fun y hy => ?_)
    · by_cases hyx : y = x
      · subst hyx
        cases hop : ((s.clients y).request req).2 with
        | none => exact .inl (by simp [sent])
        | some op => exact .inr ⟨hnot, op, by simp [sent]⟩
      · exact .inl (hother y hyx)
    · by_cases hyx : y = x
      · subst hyx
        exact hvotes
      · rw [hother y hyx] at hy
        exact h.voted y hy
  | enter x =>
    simp only [State.step] at hs
    split_ifs at hs
    obtain rfl := Option.some.inj hs
    refine h.next h.servers (fun y => .inl rfl) (fun y hy => ?_)
    have hyx : y ≠ x := by
      rintro rfl
      exact hg.2 hy
    simp only [Function.update_of_ne hyx]
    exact h.voted y hy
  | leave x =>
    simp only [State.step] at hs
    split_ifs at hs with hvotes
    obtain rfl := Option.some.inj hs
    have hnot : .stop ∉ s.sent x := by
      intro hmem
      have := h.voted x hmem
      omega
    have hself : sent { s with
        clients := Function.update s.clients x (s.clients x).startNextIteration
        left := Function.update s.left x (s.left x + 1)
        queue := Function.update s.queue x (s.queue x ++ [.endIteration (s.failed (s.left x))]) } x =
          s.sent x ++ [.endIteration (s.failed (s.left x))] := by
      simp [sent]
    refine h.next h.servers (fun y => ?_) (fun y hy => ?_)
    · by_cases hyx : y = x
      · subst hyx
        exact .inr ⟨hnot, _, hself⟩
      · exact .inl (by simp [sent, hyx])
    · by_cases hyx : y = x
      · subst hyx
        rw [hself, List.mem_append, List.mem_singleton] at hy
        exact absurd (hy.resolve_right (by simp)) hnot
      · simp only [sent, Function.update_of_ne hyx] at hy ⊢
        exact h.voted y hy
  | handle p i gc =>
    cases hq : s.queue (p, i) with
    | nil => simp [State.step, hq] at hs
    | cons op rest =>
      simp only [State.step, hq] at hs
      split_ifs at hs with harmed
      obtain ⟨⟨sv, sync⟩, hx, rfl⟩ := Option.map_eq_some_iff.mp hs
      obtain ⟨one, hcounts, -⟩ := Server.onHeader_counts hx
      have hsent : ∀ x, ({ s with queue := Function.update s.queue (p, i) rest }.setServer p sv sync).sent x =
          s.sent x := fun x => sent_setServer hq hcounts x
      have hclosing : sv.Closing :=
        (h.servers p).onHeader (Bool.eq_false_iff.mpr fun ht => harmed (.inr ht)) hx
      refine h.next (fun q => ?_) (fun y => .inl (hsent y)) (fun y hy => h.voted y (hsent y ▸ hy))
      exact (Function.forall_update_iff s.servers fun _ sv => sv.Closing).mpr
        ⟨hclosing, fun q _ => h.servers q⟩ q
  | deliver p message source gc =>
    simp only [State.step] at hs
    split_ifs at hs
    obtain ⟨sync, hsync, hs'⟩ := Option.map_eq_some_iff.mp hs
    split_ifs at hs'
    · subst hs'
      exact h.next h.servers (fun y => .inl rfl) h.voted
    · subst hs'
      have hcallback : ((s.servers p).endOfIterationCallback gc).Closing :=
        ⟨(h.servers p).requested, (h.servers p).short, (h.servers p).stopped⟩
      have hsent : ∀ y, sent { s with
          sync := sync
          servers := Function.update s.servers p ((s.servers p).endOfIterationCallback gc) } y =
            s.sent y := by
        intro y
        by_cases hy : y.1 = p
        · subst hy
          simp only [sent, Function.update_self]
          rfl
        · simp only [sent, Function.update_of_ne hy]
      refine h.next (fun q => ?_) (fun y => .inl (hsent y)) (fun y hy => h.voted y (hsent y ▸ hy))
      exact (Function.forall_update_iff s.servers fun _ sv => sv.Closing).mpr
        ⟨hcallback, fun q _ => h.servers q⟩ q

theorem closing_initial (hm : 0 < m) (config : ℤ → Option (Bool × Layout)) (source : Peer c m ↪ ℤ)
    (numDomains : ℤ) : (initial config source numDomains : State c m G).Closing := by
  have hnone : ∀ i : Fin m, i ∈ (∅ : Finset (Fin m)) ↔ .stop ∈ ([] : List (Sent G)) := fun i =>
    iff_of_false (Finset.notMem_empty i) List.not_mem_nil
  refine ⟨fun x pre post h => ?_, fun x h => absurd h List.not_mem_nil,
    fun p => ⟨fun _ => hnone, fun _ => hm, nofun⟩⟩
  exact absurd h.symm (by simp [sent, initial, Server.run])

/-- A server that has handled a request to stop has handled all that the client has sent. -/
theorem Closing.handled_all (h : s.Closing) {p : c.Rank} {i : Fin m}
    (hstop : .stop ∈ (s.servers p).handled i) :
    s.queue (p, i) = [] ∧ ((s.servers p).handled i).getLast? = some .stop := by
  obtain ⟨pre, post, hsplit⟩ := List.append_of_mem hstop
  have hlast : post ++ s.queue (p, i) = [] := by
    refine h.last (p, i) pre (post ++ s.queue (p, i)) ?_
    rw [sent, hsplit, List.append_assoc]
    rfl
  obtain ⟨rfl, hqueue⟩ := List.append_eq_nil_iff.mp hlast
  exact ⟨hqueue, by rw [hsplit, List.getLast?_concat]⟩

/-! ## At rest -/

/-- No server can do anything. -/
def AtRest (s : State c m G) : Prop := ∀ a : Action c m G, a.ByServer → s.step a = none

/-- No server is about to dereference a null block. -/
def Defined (s : State c m G) : Prop :=
  ∀ p i op rest, s.queue (p, i) = op :: rest →
    (receive (s.servers p).vars (s.clients (p, i)).source op).isSome

section

variable {p : c.Rank} {i : Fin m}

theorem AtRest.deliver (hrest : s.AtRest) (hrun : (s.servers p).stopped = false) (message : Message)
    (source : c.Rank) :
    s.sync.deliver p (fun _ tag => tag = ITERATION_SYNC) message source = none := by
  have hnone := hrest (.deliver p message source false) trivial
  simp only [State.step, hrun, Bool.false_eq_true, if_false, Option.map_eq_none_iff] at hnone
  exact hnone

/-- A server that listens to a client has handled all that it has sent. -/
theorem AtRest.queue_eq_nil (hrest : s.AtRest) (hdef : s.Defined) (hclosing : s.Closing)
    (harmed : (s.servers p).armed i ≠ 0) : s.queue (p, i) = [] := by
  cases hstopped : (s.servers p).stopped with
  | true => exact (hclosing.handled_all ((hclosing.servers p).stopped hstopped i)).1
  | false =>
    cases hq : s.queue (p, i) with
    | nil => rfl
    | cons op rest =>
      have hnone := hrest (.handle p i false) trivial
      simp only [State.step, hq, harmed, hstopped, Bool.false_eq_true, or_self, if_false,
        Option.map_eq_none_iff] at hnone
      have hreceive := hdef p i op rest hq
      rw [Server.onHeader, Option.map_eq_none_iff] at hnone
      have hvars : ((s.servers p).complete i).vars = (s.servers p).vars := rfl
      rw [hvars] at hnone
      rw [hnone] at hreceive
      cases hreceive

/-- A server at rest has processed all `k` iterations and handled everything, or it is in the
middle of a synchronisation. -/
theorem AtRest.cases {source : Peer c m ↪ ℤ} (hrest : s.AtRest) (hdef : s.Defined)
    (hclosing : s.Closing) (hcut : s.CutInv config source) (hm : 0 < m) {k : ℕ}
    (hk : ∀ x, s.left x = k) (p : c.Rank) :
    ((s.servers p).updates.length = k ∧ (s.servers p).lastIteration = k ∧
        ∀ i, s.queue (p, i) = []) ∨
      (s.servers p).updates.length + 1 = (s.servers p).lastIteration ∧
        (s.servers p).lastIteration ≤ k ∧ (s.servers p).stopped = false := by
  have hbetween := (hcut.base.counted p).between
  have hended : ∀ i, (s.servers p).endedBy i ≤ k := fun i =>
    hk (p, i) ▸ (hcut.base.agreed.handled p i).1
  have hdrained : ∀ i, s.queue (p, i) = [] → (s.servers p).endedBy i = k := by
    intro i hq
    have hflags := congrArg List.length (hcut.base.agreed.flags (p, i))
    rw [sent, hq, List.append_nil, List.length_map, List.length_range, hk] at hflags
    exact hflags
  rcases hcut.base.listening p with ⟨hn, harmed⟩ | ⟨hn, harmed⟩
  · rw [rounds_eq hcut.errorless] at hn
    -- some client is still to end the iteration that the server is in
    obtain ⟨i₀, hi₀⟩ : ∃ i, (s.servers p).endedBy i ≠ (s.servers p).lastIteration + 1 := by
      by_contra hall
      simp only [not_exists, not_not] at hall
      have hlocks := (hcut.base.counted p).locks
      rw [Finset.filter_true_of_mem fun i _ => hall i, Finset.card_univ, Fintype.card_fin] at hlocks
      exact absurd ((hcut.base.counted p).short hm) (by omega)
    have hlisten : ∀ i, (s.servers p).endedBy i ≠ (s.servers p).lastIteration + 1 →
        s.queue (p, i) = [] := by
      intro i hi
      refine hrest.queue_eq_nil hdef hclosing ?_
      rw [harmed i, if_neg fun h => hi h.1]
      exact one_ne_zero
    have hlast : (s.servers p).lastIteration = k := by
      rw [← hdrained i₀ (hlisten i₀ hi₀)]
      exact ((hbetween i₀).resolve_right hi₀).symm
    refine .inl ⟨hn.trans hlast, hlast, fun i => hlisten i ?_⟩
    have := hended i
    omega
  · rw [rounds_eq hcut.errorless] at hn
    refine .inr ⟨hn, ?_, ?_⟩
    · rw [← (harmed ⟨0, hm⟩).2]
      exact hended ⟨0, hm⟩
    · -- a server that has stopped listens to its clients
      by_contra hstopped
      have hstop := (hclosing.servers p).stopped (Bool.not_eq_false _ ▸ hstopped) ⟨0, hm⟩
      have hquiet := hcut.base.quiet p ⟨0, hm⟩ (harmed ⟨0, hm⟩).1
      rw [(hclosing.handled_all hstop).2] at hquiet
      exact absurd (Option.some.inj hquiet) (by simp)

end

/-- Nothing is in flight between servers at rest. -/
theorem AtRest.idle {source : Peer c m ↪ ℤ} (hrest : s.AtRest) (hdef : s.Defined)
    (hclosing : s.Closing) (hcut : s.CutInv config source) (hpaced : s.Paced) (hm : 0 < m) {k : ℕ}
    (hk : ∀ x, s.left x = k) (p : c.Rank) :
    (SyncState.view ITERATION_SYNC s.sync p).up = 0 ∧
      (SyncState.view ITERATION_SYNC s.sync p).wave = 0 := by
  have hcases := hrest.cases hdef hclosing hcut hm hk
  have hentries : ∀ q, (s.servers q).updates.length +
      (if (SyncState.view ITERATION_SYNC s.sync q).waiting then 1 else 0) =
        (s.servers q).lastIteration := by
    intro q
    rw [hpaced.entries q, rounds_eq hcut.errorless]
  have hbalanced := hcut.base.barrier.balanced
  have hstopped : ∀ q, (s.servers q).stopped = true → (s.servers q).updates.length = k ∧
      (SyncState.view ITERATION_SYNC s.sync q).waiting = false := by
    intro q hq
    rcases hcases q with ⟨hn, hlast, -⟩ | ⟨-, -, hrun⟩
    · refine ⟨hn, Bool.eq_false_iff.mpr fun hw => ?_⟩
      have := hentries q
      rw [if_pos hw] at this
      omega
    · rw [hq] at hrun
      cases hrun
  have hdeliver : ∀ q, (s.servers q).stopped = false → _ := fun q hq =>
    SyncState.idle_of_deliver hcut.base.barrier fun message source => hrest.deliver hq message source
  constructor
  · cases hq : (s.servers (c.parent p)).stopped with
    | false => exact (hdeliver _ hq).2 p rfl
    | true =>
      by_contra hup
      obtain ⟨hfull, -, hwave⟩ := hbalanced.full_of_up hup
      have hwait := ((hbalanced.full_iff p).mp hfull).1
      have hne : p ≠ c.tree.root := by
        rintro rfl
        exact hup hbalanced.root_up
      -- the parent has seen the release of this round, and `p` has not
      have hround : (s.sync.ran (c.parent p)).count ITERATION_SYNC =
          (s.sync.ran p).count ITERATION_SYNC + (SyncState.view ITERATION_SYNC s.sync p).wave :=
        hbalanced.rounds p hne
      rw [hwave, hcut.base.ran, hcut.base.ran, (hstopped _ hq).1] at hround
      have hone := hentries p
      rw [if_pos hwait] at hone
      rcases hcases p with ⟨-, hlast, -⟩ | ⟨-, hlast, -⟩ <;> omega
  · cases hq : (s.servers p).stopped with
    | false => exact (hdeliver p hq).1
    | true => exact (hbalanced.idle (hbalanced.not_full (hstopped p hq).2)).2

/-- Servers at rest have processed all iterations, and handled all messages. -/
theorem AtRest.processed {source : Peer c m ↪ ℤ} (hrest : s.AtRest) (hdef : s.Defined)
    (hclosing : s.Closing) (hcut : s.CutInv config source) (hpaced : s.Paced) (hm : 0 < m) {k : ℕ}
    (hk : ∀ x, s.left x = k) (p : c.Rank) :
    (s.servers p).updates.length = k ∧ ∀ i, s.queue (p, i) = [] := by
  have hcases := hrest.cases hdef hclosing hcut hm hk
  have hidle := hrest.idle hdef hclosing hcut hpaced hm hk
  have hbalanced := hcut.base.barrier.balanced
  have hequal : ∀ p q, (s.servers p).updates.length = (s.servers q).updates.length := by
    intro p q
    rw [← hcut.base.ran p, ← hcut.base.ran q]
    exact (hbalanced.released_eq hidle p).trans (hbalanced.released_eq hidle q).symm
  -- some server is in no synchronisation, so none is
  obtain ⟨p₀, hp₀⟩ := hbalanced.exists_not_waiting hidle
  have hentries := hpaced.entries p₀
  rw [hp₀, rounds_eq hcut.errorless] at hentries
  simp only [Bool.false_eq_true, if_false, add_zero] at hentries
  have := hequal p p₀
  rcases hcases p₀ with ⟨hn₀, -⟩ | ⟨hn₀, -⟩
  · rcases hcases p with ⟨hn, -, hqueue⟩ | ⟨hn, hlast, -⟩
    · exact ⟨hn, hqueue⟩
    · omega
  · omega

/-- The clients of `oneWrite` ask their server to stop. -/
def oneWriteStopped : List (Action SyncState.alone 2 Unit) :=
  oneWrite ++ [.call clientA .stop, .call clientB .stop, .handle only clientA.2 false,
    .handle only clientB.2 false]

end State
end Damaris.Iteration
