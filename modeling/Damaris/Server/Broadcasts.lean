import Mathlib.Tactic
import Damaris.Comm.BroadcastOrder
import Damaris.Lib.Bytes

/-!
# What servers broadcast

A server broadcasts the events that its clients ask it to, and the first server broadcasts that
VisIt wants something. All servers run the actions in one order, and enter the sections that serve
VisIt together. `OnBcastAction` does not look at what `Broadcast` returns: an event is lost while
an earlier one of the same server is on its way.
-/
set_option linter.unusedSectionVars false

namespace Damaris.Broadcasts

open Bytes Comm

def BCAST_EVENT : ℤ := 0

def VISIT_CONNECTED : ℤ := 1

/-- `EventMessage`, in the integers of a message. -/
structure EventBody where
  id : BitVec 32
  source : BitVec 32
  iteration : BitVec 32
  deriving DecidableEq

namespace EventBody

def bytes (ev : EventBody) : List UInt8 :=
  encode 4 ev.id.toNat ++ (encode 4 ev.source.toNat ++ encode 4 ev.iteration.toNat)

/-- The message that a pointer leads to; `none` when it leaves the buffer. -/
def ofBytes (buf : List UInt8) : Option EventBody :=
  let word := fun i => BitVec.ofNat (8 * 4) (decode ((buf.drop i).take 4))
  if 12 ≤ buf.length then some ⟨word 0, word 4, word 8⟩ else none

theorem ofBytes_bytes (ev : EventBody) : ofBytes ev.bytes = some ev := by
  have hlen : 12 ≤ ev.bytes.length := by simp [bytes]
  have hid : (ev.bytes.drop 0).take 4 = encode 4 ev.id.toNat :=
    List.take_left' (length_encode 4 _)
  have hsource : (ev.bytes.drop 4).take 4 = encode 4 ev.source.toNat := by
    rw [bytes, List.drop_left' (length_encode 4 _), List.take_left' (length_encode 4 _)]
  have hiteration : (ev.bytes.drop 8).take 4 = encode 4 ev.iteration.toNat := by
    rw [bytes, ← List.append_assoc, List.drop_left' (by simp), List.take_of_length_le (by simp)]
  simp only [ofBytes, if_pos hlen, hid, hsource, hiteration, ofNat_decode_encode]

end EventBody

/-- `VisItListener::Connected`, with what `VisItDetectInput` returns: the new state, and whether VisIt
wants something. -/
def connected (visitstate input : ℤ) : ℤ × Bool :=
  if visitstate > 0 then (visitstate, false)
  else if input ≥ -5 ∧ input ≤ -1 then (input, false)
  else (input, input > 0)

/-- The reactors of all servers, and their `visitstate_`. `signalled`, `ran`, `detected` and
`sections` are history: the events with an action that a server was asked to broadcast, the actions
that its `BcastEventCallback` has called, the inputs that `Connected` has reported, and the state in
each `EnterSyncSection`. -/
structure State (c : Topology) where
  reactor : BcastState c
  visitstate : c.Rank → ℤ
  signalled : c.Rank → List EventBody
  ran : c.Rank → List EventBody
  detected : List ℤ
  sections : c.Rank → List ℤ

inductive Action (c : Topology)
  | onBcastAction (p : c.Rank) (ev : EventBody) (sent : Bool)
  | poll (iteration : BitVec 32) (input : ℤ) (sent : Bool)
  | enter (p source : c.Rank)
  | leave (p : c.Rank)

variable {c : Topology} (known : BitVec 32 → Bool)

/-- The event that a broadcast is about, if there is an action for it. -/
def event (b : Broadcast c) : Option EventBody :=
  if b.tag = BCAST_EVENT then (EventBody.ofBytes b.bytes).filter fun ev => known ev.id else none

namespace State

def initial : State c := ⟨.initial, fun _ => -1, fun _ => [], fun _ => [], [], fun _ => []⟩

/-- `Server::OnBcastAction`, where no handler blocks. -/
def onBcastAction (s : State c) (p : c.Rank) (ev : EventBody) (sent : Bool) : Option (State c) :=
  if s.reactor.inside p = none then
    if known ev.id then
      (s.reactor.broadcast p BCAST_EVENT ev.bytes sent).map fun reactor =>
        { s with
          reactor := reactor
          signalled := Function.update s.signalled p (s.signalled p ++ [ev]) }
    else some s
  else none

/-- A round of the loop in `Server::Run` on the first server. -/
def poll (s : State c) (iteration : BitVec 32) (input : ℤ) (sent : Bool) : Option (State c) :=
  if s.reactor.inside c.leader = none then
    let x := connected (s.visitstate c.leader) input
    let s := { s with visitstate := Function.update s.visitstate c.leader x.1 }
    if x.2 then
      (s.reactor.broadcast c.leader VISIT_CONNECTED (encode 4 iteration.toNat) sent).map fun reactor =>
        { s with reactor := reactor, detected := s.detected ++ [x.1] }
    else some s
  else none

/-- `VisItListener::EnterSyncSection`: the first server brings its state into the `MPI_Bcast`, and
the others wait for it there. -/
def enterSyncSection (s : State c) (p : c.Rank) : Option (State c) :=
  let state := if p = c.leader then some (s.visitstate p) else (s.sections c.leader)[(s.sections p).length]?
  state.map fun v =>
    { s with
      visitstate := Function.update s.visitstate p 0
      sections := Function.update s.sections p (s.sections p ++ [v]) }

/-- `Server::BcastEventCallback`. -/
def bcastEventCallback (s : State c) (p : c.Rank) (buf : List UInt8) : Option (State c) :=
  (EventBody.ofBytes buf).map fun ev =>
    if known ev.id then { s with ran := Function.update s.ran p (s.ran p ++ [ev]) } else s

/-- The callback that is bound to a tag, if there is one. -/
def callback (s : State c) (p : c.Rank) (d : Delivery c) : Option (State c) :=
  if d.tag = BCAST_EVENT then s.bcastEventCallback known p d.buffer
  else if d.tag = VISIT_CONNECTED then s.enterSyncSection p
  else some s

/-- The end of `BcastCallback`, with the callback. -/
def leave (s : State c) (p : c.Rank) : Option (State c) :=
  (s.reactor.leave p).bind fun reactor =>
    ((reactor.handled p).getLast?).bind fun d => { s with reactor := reactor }.callback known p d

def step (s : State c) : Action c → Option (State c)
  | .onBcastAction p ev sent => s.onBcastAction known p ev sent
  | .poll iteration input sent => s.poll iteration input sent
  | .enter p source => (s.reactor.enter p source).map fun reactor => { s with reactor := reactor }
  | .leave p => s.leave known p

/-- The broadcasts that a server has handled. -/
def heard (s : State c) (p : c.Rank) : List (Broadcast c) := (s.reactor.handled p).map Delivery.broadcast

/-- The events of a server for which `Broadcast` has returned true. -/
def started (s : State c) (p : c.Rank) : List EventBody := (s.reactor.accepted p).filterMap (event known)

/-- Nothing more happens until a server is asked for something. -/
def Stalled (s : State c) : Prop :=
  ∀ p, s.step known (.leave p) = none ∧ ∀ source, s.step known (.enter p source) = none

end State

/-- The number of broadcasts that are about VisIt. -/
def visits (bs : List (Broadcast c)) : ℕ := bs.countP fun b => b.tag = VISIT_CONNECTED

@[simp] theorem visits_append (bs bs' : List (Broadcast c)) : visits (bs ++ bs') = visits bs + visits bs' :=
  List.countP_append

theorem visits_le {bs bs' : List (Broadcast c)} (h : bs <+: bs') : visits bs ≤ visits bs' :=
  h.sublist.countP_le

@[simp] theorem event_bytes {p : c.Rank} {ev : EventBody} (h : known ev.id) :
    event known ⟨p, BCAST_EVENT, ev.bytes⟩ = some ev := by
  simp [event, EventBody.ofBytes_bytes, h]

theorem event_of_ne {b : Broadcast c} (h : b.tag ≠ BCAST_EVENT) : event known b = none := if_neg h

theorem connected_eq_true {visitstate input : ℤ} (h : (connected visitstate input).2 = true) :
    visitstate ≤ 0 ∧ 0 < input ∧ (connected visitstate input).1 = input := by
  unfold connected at h ⊢
  split_ifs at h ⊢ with hstate
  exact ⟨not_lt.mp hstate, of_decide_eq_true h, rfl⟩

theorem connected_eq_false {visitstate input : ℤ} (h : (connected visitstate input).2 = false) :
    (0 < visitstate → (connected visitstate input).1 = visitstate) ∧
      (visitstate ≤ 0 → (connected visitstate input).1 ≤ 0) := by
  unfold connected at h ⊢
  split_ifs at h ⊢ with hstate herror
  · exact ⟨fun _ => rfl, fun hle => absurd hle (not_le.mpr hstate)⟩
  · exact ⟨fun hpos => absurd hpos hstate, fun _ => herror.2.trans (by decide)⟩
  · exact ⟨fun hpos => absurd hpos hstate, fun _ => not_lt.mp (of_decide_eq_false h)⟩

/-! ## Steps of the reactor -/

section Reactor

variable {r r' : BcastState c} {items : Relay.State c.Rank (Broadcast c)}
  {waiting : c.Rank → List (Broadcast c)}

/-- A broadcast is accepted unless the last one of its tag is still on its way, or cannot be sent. -/
theorem broadcast_keeps {p : c.Rank} {tag : ℤ} {buf : List UInt8} {sent : Bool}
    (h : r.broadcast p tag buf sent = some r') : r'.handled = r.handled ∧ ∀ q, r'.accepted q =
      r.accepted q ++ if q = p ∧ r.bcastBuffers p tag = none ∧ sent then [⟨p, tag, buf⟩] else [] := by
  unfold BcastState.broadcast at h
  split_ifs at h
  obtain rfl := Option.some.inj h
  refine ⟨rfl, fun q => ?_⟩
  have hreturned : (MPI2Reactor.broadcast p tag buf sent (r.bcastBuffers p)).returned = true ↔
      r.bcastBuffers p tag = none ∧ sent := by
    unfold MPI2Reactor.broadcast
    cases r.bcastBuffers p tag <;> cases sent <;> simp
  by_cases hq : q = p
  · subst hq
    simp only [Function.update_self, hreturned, true_and]
  · simp [hq]

theorem enter_keeps {p source : c.Rank} (h : r.enter p source = some r') : r'.handled = r.handled := by
  unfold BcastState.enter at h
  split_ifs at h
  obtain ⟨_, -, rfl⟩ := Option.map_eq_some_iff.mp h
  rfl

/-- The callback runs with the broadcast that the rank took last. -/
theorem leave_delivers (h : BcastState.Refines r items waiting) {p : c.Rank} (hs : r.leave p = some r') :
    ∃ b done, items.taken p = done ++ [b] ∧ r.handled p = done.map Broadcast.delivery ∧
      r'.handled = Function.update r.handled p (r.handled p ++ [b.delivery]) := by
  unfold BcastState.leave at hs
  obtain ⟨call, hin, hs⟩ := Option.bind_eq_some_iff.mp hs
  obtain ⟨data, hdata, rfl⟩ := Option.map_eq_some_iff.mp hs
  obtain ⟨done, hdone, ⟨hnone, -⟩ | ⟨b, hb, htaken⟩⟩ := h.handled p
  · exact absurd (hin.symm.trans hnone) (Option.some_ne_none _)
  · obtain rfl : call = b.callAt p := Option.some.inj (hin.symm.trans hb)
    obtain rfl := h.bcastData htaken hdata
    exact ⟨b, done, htaken, hdone, rfl⟩

/-- What a rank has taken has been accepted. -/
theorem accepted_of_taken (h : BcastState.Refines r items waiting) {p : c.Rank} {b : Broadcast c}
    (hb : b ∈ items.taken p) : b ∈ r.accepted b.root := by
  rw [h.accepted]
  exact List.mem_append_left _ (List.mem_filter.mpr ⟨(h.flows.le_root p).subset hb, by simp⟩)

theorem heard_le (h : BcastState.Refines r items waiting) (p : c.Rank) :
    (r.handled p).map Delivery.broadcast <+: items.taken p := by
  have hbroadcast : Delivery.broadcast ∘ Broadcast.delivery (c := c) = id := rfl
  obtain ⟨done, hdone, ⟨-, htaken⟩ | ⟨b, -, htaken⟩⟩ := h.handled p
  · rw [hdone, htaken, List.map_map, hbroadcast, List.map_id]
  · rw [hdone, htaken, List.map_map, hbroadcast, List.map_id]
    exact List.prefix_append _ _

end Reactor

theorem concat_prefix {α : Type*} {l l' : List α} {x : α} (h : l <+: l') (hx : l'[l.length]? = some x) :
    l ++ [x] <+: l' := by
  obtain ⟨rest, rfl⟩ := h
  rw [List.getElem?_append_right le_rfl, Nat.sub_self] at hx
  cases rest with
  | nil => exact absurd hx nofun
  | cons y rest =>
    obtain rfl := Option.some.inj hx
    exact ⟨rest, by rw [List.append_assoc]; rfl⟩

namespace State

variable {known} {s s' : State c} {items : Relay.State c.Rank (Broadcast c)}
  {waiting : c.Rank → List (Broadcast c)}

/-- The first server has VisIt's last input, which is still to be served; or there is none. `state` is
its `visitstate_`, and `served` says how many broadcasts about VisIt it has accepted. -/
def Visiting (state : ℤ) (detected sections : List ℤ) (accepted : ℕ) : Prop :=
  (state ≤ 0 ∧ detected = sections ∧ accepted = sections.length) ∨
    (0 < state ∧ detected = sections ++ [state] ∧ sections.length ≤ accepted ∧
      accepted ≤ sections.length + 1)

/-- What all states have in common. -/
structure Inv (known : BitVec 32 → Bool) (s : State c) (items : Relay.State c.Rank (Broadcast c))
    (waiting : c.Rank → List (Broadcast c)) : Prop where
  refines : BcastState.Refines s.reactor items waiting
  kinds : ∀ r, ∀ b ∈ s.reactor.accepted r, (∃ ev : EventBody, known ev.id ∧ b = ⟨r, BCAST_EVENT, ev.bytes⟩) ∨
    (b.tag = VISIT_CONNECTED ∧ r = c.leader)
  ran : ∀ p, s.ran p = (s.heard p).filterMap (event known)
  started : ∀ r, (s.started known r).Sublist (s.signalled r)
  served : ∀ p, (s.sections p).length = visits (s.heard p)
  behind : ∀ p, s.sections p <+: s.sections c.leader
  visiting : Visiting (s.visitstate c.leader) s.detected (s.sections c.leader)
    (visits (s.reactor.accepted c.leader))

theorem inv_initial : Inv known (initial : State c) ⟨fun _ => [], fun _ => []⟩ fun _ => [] where
  refines := BcastState.refines_initial
  kinds _ _ hb := absurd hb List.not_mem_nil
  ran _ := rfl
  started _ := List.Sublist.slnil
  served _ := rfl
  behind _ := List.prefix_rfl
  visiting := .inl ⟨show (-1 : ℤ) ≤ 0 by decide, rfl, rfl⟩

theorem Inv.tag (h : Inv known s items waiting) {p : c.Rank} {b : Broadcast c} (hb : b ∈ items.taken p) :
    (∃ ev : EventBody, known ev.id ∧ b = ⟨b.root, BCAST_EVENT, ev.bytes⟩) ∨
      (b.tag = VISIT_CONNECTED ∧ b.root = c.leader) :=
  h.kinds b.root b (accepted_of_taken h.refines hb)

/-- All broadcasts about VisIt come from the first server. -/
theorem Inv.visits_filter (h : Inv known s items waiting) :
    visits ((items.taken c.leader).filter fun b => b.root = c.leader) = visits (items.taken c.leader) := by
  rw [visits, visits, List.countP_filter]
  refine List.countP_congr fun b hb => ?_
  rcases h.tag hb with ⟨ev, -, hev⟩ | ⟨htag, hleader⟩
  · rw [hev]
    simp [VISIT_CONNECTED, BCAST_EVENT]
  · simp [htag, hleader]

theorem Inv.visits_taken (h : Inv known s items waiting) (p : c.Rank) :
    visits (items.taken p) ≤ visits (s.reactor.accepted c.leader) := by
  rw [h.refines.accepted, visits_append, h.visits_filter]
  exact (visits_le (h.refines.flows.le_root p)).trans (Nat.le_add_right _ _)

/-- While VisIt is not to be served, its tag is free. -/
theorem Inv.free (h : Inv known s items waiting) (hstate : s.visitstate c.leader ≤ 0) :
    s.reactor.bcastBuffers c.leader VISIT_CONNECTED = none := by
  have haccepted : visits (s.reactor.accepted c.leader) = (s.sections c.leader).length := by
    rcases h.visiting with ⟨-, -, hlen⟩ | ⟨hpos, -⟩
    · exact hlen
    · omega
  rw [h.served] at haccepted
  have hheard : visits (s.heard c.leader) ≤ visits (items.taken c.leader) :=
    visits_le (heard_le h.refines c.leader)
  by_contra hsaved
  obtain ⟨buf, hbuf⟩ := Option.ne_none_iff_exists'.mp hsaved
  obtain ⟨pending, hstarted, -, hmem⟩ := h.refines.saved c.leader
  have hpos : 0 < visits (pending.map fun x => (⟨c.leader, x.1, x.2⟩ : Broadcast c)) := by
    rw [visits, List.countP_pos_iff]
    exact ⟨_, List.mem_map_of_mem ((hmem _ _).mp hbuf), by simp⟩
  have hsplit := congrArg visits hstarted
  rw [visits_append, h.visits_filter] at hsplit
  omega

/-! ## Steps of the servers -/

/-- A server broadcasts an event, or the first server that VisIt wants something. -/
theorem Inv.broadcast (h : Inv known s items waiting) {p : c.Rank} {tag : ℤ} {buf : List UInt8} {sent : Bool}
    {reactor : BcastState c} (hreactor : s.reactor.broadcast p tag buf sent = some reactor)
    (hkind : (∃ ev : EventBody, known ev.id ∧ tag = BCAST_EVENT ∧ buf = ev.bytes) ∨
      (tag = VISIT_CONNECTED ∧ p = c.leader)) :
    ∃ items' waiting', BcastState.Refines reactor items' waiting' ∧ ∀ r, ∀ b ∈ reactor.accepted r,
      (∃ ev : EventBody, known ev.id ∧ b = ⟨r, BCAST_EVENT, ev.bytes⟩) ∨
        (b.tag = VISIT_CONNECTED ∧ r = c.leader) := by
  obtain ⟨items', waiting', hrefines⟩ := h.refines.step (a := .broadcast p tag buf sent) hreactor
  refine ⟨items', waiting', hrefines, fun r b hb => ?_⟩
  rw [(broadcast_keeps hreactor).2, List.mem_append] at hb
  rcases hb with hb | hb
  · exact h.kinds r b hb
  · split_ifs at hb with hr
    · obtain rfl := List.mem_singleton.mp hb
      obtain ⟨rfl, -⟩ := hr
      rcases hkind with ⟨ev, hknown, rfl, rfl⟩ | hvisit
      · exact .inl ⟨ev, hknown, rfl⟩
      · exact .inr hvisit
    · exact absurd hb List.not_mem_nil

/-- A server that is asked for an event starts it unless the last one is still on its way. -/
theorem started_onBcastAction {p : c.Rank} {ev : EventBody} {sent : Bool} (hknown : known ev.id)
    {reactor : BcastState c} (hreactor : s.reactor.broadcast p BCAST_EVENT ev.bytes sent = some reactor)
    (q : c.Rank) : (reactor.accepted q).filterMap (event known) = s.started known q ++
      if q = p ∧ s.reactor.bcastBuffers p BCAST_EVENT = none ∧ sent then [ev] else [] := by
  rw [(broadcast_keeps hreactor).2, List.filterMap_append, State.started]
  split_ifs <;> simp [hknown]

theorem Inv.onBcastAction (h : Inv known s items waiting) {p : c.Rank} {ev : EventBody} {sent : Bool}
    (hs : s.onBcastAction known p ev sent = some s') :
    ∃ items' waiting', Inv known s' items' waiting' := by
  unfold State.onBcastAction at hs
  split_ifs at hs with hfree hknown
  · obtain ⟨reactor, hreactor, rfl⟩ := Option.map_eq_some_iff.mp hs
    obtain ⟨hhandled, haccepted⟩ := broadcast_keeps hreactor
    obtain ⟨items', waiting', hrefines, hkinds⟩ := h.broadcast hreactor (.inl ⟨ev, hknown, rfl, rfl⟩)
    have hheard : ∀ q, (reactor.handled q).map Delivery.broadcast = s.heard q := fun q => by rw [hhandled]; rfl
    refine ⟨items', waiting', hrefines, hkinds, fun q => ?_, fun r => ?_, fun q => ?_, h.behind, ?_⟩
    · exact (h.ran q).trans (by rw [← hheard]; rfl)
    · have hstarted := started_onBcastAction hknown hreactor r
      rw [State.started, hstarted]
      dsimp only
      by_cases hr : r = p
      · subst hr
        rw [Function.update_self]
        refine (h.started r).append ?_
        split_ifs <;> simp
      · rw [Function.update_of_ne hr, if_neg fun hcond => hr hcond.1, List.append_nil]
        exact h.started r
    · exact (h.served q).trans (by rw [← hheard]; rfl)
    · have hvisits : visits (reactor.accepted c.leader) = visits (s.reactor.accepted c.leader) := by
        rw [haccepted, visits_append]
        split_ifs <;> simp [visits, VISIT_CONNECTED, BCAST_EVENT]
      rw [hvisits]
      exact h.visiting
  · obtain rfl := Option.some.inj hs
    exact ⟨items, waiting, h⟩

theorem Inv.poll (h : Inv known s items waiting) {iteration : BitVec 32} {input : ℤ} {sent : Bool}
    (hs : s.poll iteration input sent = some s') : ∃ items' waiting', Inv known s' items' waiting' := by
  simp only [State.poll] at hs
  split_ifs at hs with hfree hdetected
  · obtain ⟨reactor, hreactor, rfl⟩ := Option.map_eq_some_iff.mp hs
    obtain ⟨hhandled, haccepted⟩ := broadcast_keeps hreactor
    obtain ⟨items', waiting', hrefines, hkinds⟩ := h.broadcast hreactor (.inr ⟨rfl, rfl⟩)
    obtain ⟨hstate, hinput, hx⟩ := connected_eq_true hdetected
    have hheard : ∀ q, (reactor.handled q).map Delivery.broadcast = s.heard q := fun q => by rw [hhandled]; rfl
    refine ⟨items', waiting', hrefines, hkinds, fun q => ?_, fun r => ?_, fun q => ?_, h.behind, ?_⟩
    · exact (h.ran q).trans (by rw [← hheard]; rfl)
    · have hsame : (reactor.accepted r).filterMap (event known) = s.started known r := by
        rw [haccepted, List.filterMap_append, State.started]
        split_ifs <;> simp [event, VISIT_CONNECTED, BCAST_EVENT]
      rw [State.started, hsame]
      exact h.started r
    · exact (h.served q).trans (by rw [← hheard]; rfl)
    · rcases h.visiting with ⟨-, hdetections, haccept⟩ | ⟨hpos, -⟩
      · refine .inr ⟨?_, ?_, ?_, ?_⟩
        · simpa [hx] using hinput
        · simp [hx, hdetections]
        · rw [haccepted, visits_append, haccept]
          exact Nat.le_add_right _ _
        · rw [haccepted, visits_append, haccept]
          split_ifs <;> simp [visits]
      · omega
  · obtain rfl := Option.some.inj hs
    refine ⟨items, waiting, { h with visiting := ?_ }⟩
    have hnot := connected_eq_false (Bool.eq_false_iff.mpr hdetected)
    dsimp only
    rw [Function.update_self]
    rcases h.visiting with ⟨hstate, hrest⟩ | ⟨hpos, hrest⟩
    · exact .inl ⟨hnot.2 hstate, hrest⟩
    · rw [hnot.1 hpos]
      exact .inr ⟨hpos, hrest⟩

/-- The callback of a broadcast, which the server has taken last. -/
theorem Inv.leave (h : Inv known s items waiting) {p : c.Rank} (hs : s.leave known p = some s') :
    Inv known s' items waiting := by
  obtain ⟨reactor, hreactor, hs⟩ := Option.bind_eq_some_iff.mp hs
  obtain ⟨b, done, htaken, hdone, hhandled⟩ := leave_delivers h.refines hreactor
  have hrefines := h.refines.leave hreactor
  have haccepted : ∀ q, reactor.accepted q = s.reactor.accepted q := fun q => by
    have hstep := BcastState.accepted_step (a := .leave p) hreactor q
    simpa [BcastState.started] using hstep
  have hself : reactor.handled p = s.reactor.handled p ++ [b.delivery] := by rw [hhandled, Function.update_self]
  have hheard : ∀ q, (reactor.handled q).map Delivery.broadcast = s.heard q ++ if q = p then [b] else [] := by
    intro q
    rw [hhandled]
    by_cases hq : q = p
    · subst hq
      simp [heard]
    · simp [heard, hq]
  rw [hself, List.getLast?_concat, Option.bind_some, callback] at hs
  have hkinds : ∀ r, ∀ b ∈ reactor.accepted r, _ := fun r b hb => h.kinds r b (haccepted r ▸ hb)
  have hstarted : ∀ r, ((reactor.accepted r).filterMap (event known)).Sublist (s.signalled r) := fun r => by
    rw [haccepted]
    exact h.started r
  have hb : b ∈ items.taken p := htaken ▸ List.mem_append_right _ (List.mem_singleton_self b)
  rcases h.tag hb with ⟨ev, hknown, hev⟩ | ⟨htag, hroot⟩
  · have htag : b.delivery.tag = BCAST_EVENT := congrArg Broadcast.tag hev
    have hbuffer : b.delivery.buffer = ev.bytes := congrArg Broadcast.bytes hev
    have hevent : event known b = some ev := by rw [hev, event_bytes known hknown]
    rw [if_pos htag, bcastEventCallback, hbuffer, EventBody.ofBytes_bytes, Option.map_some, if_pos hknown] at hs
    obtain rfl := Option.some.inj hs
    refine ⟨hrefines, hkinds, fun q => ?_, hstarted, fun q => ?_, h.behind, ?_⟩
    · rw [heard, hheard]
      dsimp only
      by_cases hq : q = p
      · subst hq
        simp [h.ran, hevent]
      · simp [hq, h.ran]
    · rw [heard, hheard, visits_append]
      refine (h.served q).trans ?_
      split_ifs with hq
      · rw [hev]
        rfl
      · rfl
    · simp only [haccepted]
      exact h.visiting
  · have hne : b.tag ≠ BCAST_EVENT := by rw [htag]; decide
    have hevent : event known b = none := event_of_ne known hne
    rw [if_neg (show ¬ b.delivery.tag = BCAST_EVENT from hne), if_pos (show b.delivery.tag = _ from htag)] at hs
    obtain ⟨v, hv, rfl⟩ := Option.map_eq_some_iff.mp hs
    have hserved : ∀ q, (Function.update s.sections p (s.sections p ++ [v]) q).length =
        visits (s.heard q ++ if q = p then [b] else []) := by
      intro q
      rw [visits_append]
      by_cases hq : q = p
      · subst hq
        rw [Function.update_self, if_pos rfl, List.length_append, h.served]
        simp [visits, htag]
      · rw [Function.update_of_ne hq, if_neg hq, h.served]
        rfl
    have hran : ∀ q, s.ran q = (s.heard q ++ if q = p then [b] else []).filterMap (event known) := by
      intro q
      rw [h.ran, List.filterMap_append]
      split_ifs <;> simp [hevent]
    refine ⟨hrefines, hkinds, fun q => ?_, hstarted, fun q => ?_, fun q => ?_, ?_⟩
    · rw [heard, hheard]
      exact hran q
    · rw [heard, hheard]
      exact hserved q
    · dsimp only at hv ⊢
      by_cases hp : p = c.leader
      · -- the first server is ahead of the others
        subst hp
        rw [Function.update_self]
        by_cases hq : q = c.leader
        · rw [hq, Function.update_self]
        · rw [Function.update_of_ne hq]
          exact (h.behind q).trans (List.prefix_append _ _)
      · rw [if_neg hp] at hv
        rw [Function.update_of_ne (Ne.symm hp)]
        by_cases hq : q = p
        · subst hq
          rw [Function.update_self]
          exact concat_prefix (h.behind q) hv
        · rw [Function.update_of_ne hq]
          exact h.behind q
    · dsimp only at hv ⊢
      rw [haccepted]
      by_cases hp : p = c.leader
      · subst hp
        rw [if_pos rfl] at hv
        obtain rfl := Option.some.inj hv
        have hone := h.visits_taken c.leader
        have hold : visits (s.heard c.leader) = visits done := by
          rw [heard, hdone, List.map_map]
          exact congrArg visits (List.map_id done)
        have hnew : visits [b] = 1 := by simp [visits, htag]
        rw [htaken, visits_append, hnew] at hone
        have hlen := h.served c.leader
        rw [Function.update_self, Function.update_self]
        rcases h.visiting with ⟨-, -, hcount⟩ | ⟨hpos, hdetected, hlow, hhigh⟩
        · omega
        · refine .inl ⟨le_rfl, hdetected, ?_⟩
          rw [List.length_append, List.length_singleton]
          omega
      · rw [Function.update_of_ne (Ne.symm hp), Function.update_of_ne (Ne.symm hp)]
        exact h.visiting

theorem Inv.step (h : Inv known s items waiting) {a : Action c} (hs : s.step known a = some s') :
    ∃ items' waiting', Inv known s' items' waiting' := by
  cases a with
  | onBcastAction p ev sent => exact h.onBcastAction hs
  | poll iteration input sent => exact h.poll hs
  | enter p source =>
    obtain ⟨reactor, hreactor, rfl⟩ := Option.map_eq_some_iff.mp hs
    obtain ⟨items', waiting', hrefines⟩ := h.refines.step (a := .enter p source) hreactor
    have haccepted : reactor.accepted = s.reactor.accepted := by
      funext q
      have hstep := BcastState.accepted_step (a := .enter p source) hreactor q
      simpa [BcastState.started] using hstep
    have hheard : ∀ q, heard { s with reactor := reactor } q = s.heard q := fun q => by
      rw [heard, enter_keeps hreactor]
      rfl
    refine ⟨items', waiting', hrefines, fun r => haccepted ▸ h.kinds r, fun q => ?_, fun r => ?_,
      fun q => ?_, h.behind, haccepted ▸ h.visiting⟩
    · rw [hheard]
      exact h.ran q
    · rw [State.started, haccepted]
      exact h.started r
    · rw [hheard]
      exact h.served q
  | leave p => exact ⟨items, waiting, h.leave hs⟩

theorem inv_of_run {as : List (Action c)} (hr : StepSystem.run (step known) initial as = some s) :
    ∃ items waiting, Inv known s items waiting := by
  refine StepSystem.run_invariant (I := fun s => ∃ items waiting, Inv known s items waiting) ?_
    ⟨_, _, inv_initial⟩ hr
  rintro s a s' ⟨items, waiting, h⟩ hs
  exact h.step hs

/-! ## Coming to rest -/

/-- A callback that does not return is one that waits for the first server. -/
theorem Inv.of_leave_eq_none (h : Inv known s items waiting) {p : c.Rank} {reactor : BcastState c}
    (hreactor : s.reactor.leave p = some reactor) (hs : s.leave known p = none) :
    p ≠ c.leader ∧ ∃ b done, items.taken p = done ++ [b] ∧ b.tag = VISIT_CONNECTED ∧
      visits (s.heard c.leader) ≤ visits done := by
  obtain ⟨b, done, htaken, hdone, hhandled⟩ := leave_delivers h.refines hreactor
  have hself : reactor.handled p = s.reactor.handled p ++ [b.delivery] := by rw [hhandled, Function.update_self]
  have hb : b ∈ items.taken p := htaken ▸ List.mem_append_right _ (List.mem_singleton_self b)
  rw [State.leave, hreactor, Option.bind_some, hself, List.getLast?_concat, Option.bind_some, callback] at hs
  rcases h.tag hb with ⟨ev, hknown, hev⟩ | ⟨htag, -⟩
  · have htag : b.delivery.tag = BCAST_EVENT := congrArg Broadcast.tag hev
    have hbuffer : b.delivery.buffer = ev.bytes := congrArg Broadcast.bytes hev
    rw [if_pos htag, bcastEventCallback, hbuffer, EventBody.ofBytes_bytes, Option.map_some] at hs
    exact absurd hs (Option.some_ne_none _)
  · have hne : ¬ b.delivery.tag = BCAST_EVENT := by
      rw [show b.delivery.tag = VISIT_CONNECTED from htag]
      decide
    rw [if_neg hne, if_pos (show b.delivery.tag = _ from htag), enterSyncSection, Option.map_eq_none_iff] at hs
    split_ifs at hs with hp
    have hlen := List.getElem?_eq_none_iff.mp hs
    have hold : visits (s.heard p) = visits done := by
      rw [heard, hdone, List.map_map]
      exact congrArg visits (List.map_id done)
    refine ⟨hp, b, done, htaken, htag, ?_⟩
    rw [← h.served, ← hold, ← h.served]
    exact hlen

/-- When no server can go on, none of their reactors can. -/
theorem Inv.stalled (h : Inv known s items waiting) (hs : s.Stalled known) : s.reactor.Stalled := by
  have hcalls : ∀ p, (s.reactor.calls p).length = (items.taken p).length := fun p => by simp [h.refines.calls]
  refine ⟨fun p source hfree hlisten => ?_, fun p hin => ?_⟩
  · cases hnet : s.reactor.net ⟨.BCAST, source, p⟩ with
    | nil => rfl
    | cons info rest =>
      have hnone : (s.reactor.enter p source).map _ = none := (hs p).2 source
      rw [Option.map_eq_none_iff, BcastState.enter, if_pos ⟨hfree, hlisten⟩,
        Fifo.pop_eq_some.mpr ⟨rest, hnet, rfl⟩] at hnone
      exact absurd hnone (Option.some_ne_none _)
  · by_contra hlast
    have hall : ∀ q, (s.reactor.calls p).length ≤ (s.reactor.calls q).length := fun q =>
      not_lt.mp fun hlt => hlast ⟨q, hlt⟩
    obtain ⟨reactor, hreactor⟩ := Option.isSome_iff_exists.mp (h.refines.isSome_leave hin hall)
    obtain ⟨hp, b, done, htaken, htag, hbehind⟩ := h.of_leave_eq_none hreactor (hs p).1
    -- the first server has entered the call that the others wait in, and is in none before it
    obtain ⟨doneL, hdoneL, hcase⟩ := h.refines.handled c.leader
    have hheard : s.heard c.leader = doneL := by
      rw [heard, hdoneL, List.map_map]
      exact List.map_id doneL
    have hlead : doneL <+: items.taken c.leader := by
      rcases hcase with ⟨-, htakenL⟩ | ⟨bL, -, htakenL⟩
      · rw [htakenL]
      · rw [htakenL]
        exact List.prefix_append _ _
    have hfollow : done ++ [b] <+: items.taken c.leader := htaken ▸ h.refines.flows.le_root p
    have hshort : doneL.length ≤ done.length := by
      by_contra hlong
      have hpre : done ++ [b] <+: doneL :=
        List.prefix_of_prefix_length_le hfollow hlead (by simp; omega)
      have hcount := visits_le hpre
      have hnew : visits [b] = 1 := by simp [visits, htag]
      rw [visits_append, hnew] at hcount
      rw [hheard] at hbehind
      omega
    have hle := hall c.leader
    rw [hcalls, hcalls, htaken, List.length_append, List.length_singleton] at hle
    rcases hcase with ⟨-, htakenL⟩ | ⟨bL, hinL, htakenL⟩
    · rw [htakenL] at hle
      omega
    · have hleader : ∀ q, (s.reactor.calls c.leader).length ≤ (s.reactor.calls q).length := fun q => by
        have hq := hall q
        rw [hcalls, htaken] at hq
        rw [hcalls, htakenL]
        simp only [List.length_append, List.length_singleton] at hq ⊢
        omega
      have hinside : s.reactor.inside c.leader ≠ none := hinL ▸ Option.some_ne_none _
      obtain ⟨reactorL, hreactorL⟩ := Option.isSome_iff_exists.mp (h.refines.isSome_leave hinside hleader)
      exact (h.of_leave_eq_none hreactorL (hs c.leader).1).1 rfl

/-- There is one order of the events that servers have started to broadcast, with their servers: it
keeps the order of each server, and every server runs the actions in it. When the servers have come
to rest all of them have run the action of every event once. -/
structure Ordered (known : BitVec 32 → Bool) (s : State c) (order : List (c.Rank × EventBody)) : Prop where
  ran : ∀ p, s.ran p <+: order.map Prod.snd
  started : ∀ r, (order.filter fun x => x.1 = r).map Prod.snd <+: s.started known r
  all : s.Stalled known → (∀ p, s.ran p = order.map Prod.snd) ∧
    ∀ r, (order.filter fun x => x.1 = r).map Prod.snd = s.started known r

/-- The events among broadcasts, with the servers that they are of. -/
def events (known : BitVec 32 → Bool) (bs : List (Broadcast c)) : List (c.Rank × EventBody) :=
  bs.filterMap fun b => (event known b).map fun ev => (b.root, ev)

theorem map_events (known : BitVec 32 → Bool) (bs : List (Broadcast c)) :
    (events known bs).map Prod.snd = bs.filterMap (event known) := by
  rw [events, List.map_filterMap]
  refine List.filterMap_congr fun b _ => ?_
  cases event known b <;> rfl

theorem filter_events (known : BitVec 32 → Bool) (bs : List (Broadcast c)) (r : c.Rank) :
    ((events known bs).filter fun x => x.1 = r) = events known (bs.filter fun b => b.root = r) := by
  induction bs with
  | nil => rfl
  | cons b bs ih =>
    by_cases hr : b.root = r <;> cases hev : event known b <;> simp_all [events]

theorem Inv.ordered (h : Inv known s items waiting) : Ordered known s (events known (items.taken c.leader)) := by
  refine ⟨fun p => ?_, fun r => ?_, fun hs => ⟨fun p => ?_, fun r => ?_⟩⟩
  · rw [map_events, h.ran]
    exact ((heard_le h.refines p).trans (h.refines.flows.le_root p)).filterMap _
  · rw [filter_events, map_events, State.started, h.refines.accepted]
    exact (List.prefix_append _ _).filterMap _
  · rw [map_events, h.ran, heard, (h.refines.complete (h.stalled hs)).2 p, List.map_map]
    exact congrArg _ (List.map_id _)
  · rw [filter_events, map_events, State.started, (h.refines.complete (h.stalled hs)).1 r]

/-- In every run the servers run the actions of broadcast events in one order, and each of them runs all
of those that were started before they come to rest. -/
theorem events_ordered {as : List (Action c)} (hr : StepSystem.run (step known) initial as = some s) :
    (∃ order, Ordered known s order) ∧ ∀ r, (s.started known r).Sublist (s.signalled r) := by
  obtain ⟨items, waiting, h⟩ := inv_of_run hr
  exact ⟨⟨_, h.ordered⟩, h.started⟩

/-- The condition: the server's last event has reached it again, and this one can be sent. -/
def Heeds (known : BitVec 32 → Bool) (s : State c) : Action c → Prop
  | .onBcastAction p ev sent => known ev.id → s.reactor.bcastBuffers p BCAST_EVENT = none ∧ sent = true
  | _ => True

instance (s : State c) : (a : Action c) → Decidable (Heeds known s a)
  | .onBcastAction p ev sent =>
    inferInstanceAs (Decidable (known ev.id → s.reactor.bcastBuffers p BCAST_EVENT = none ∧ sent = true))
  | .poll _ _ _ | .enter _ _ | .leave _ => .isTrue trivial

theorem callback_keeps {p : c.Rank} {d : Delivery c} (h : s.callback known p d = some s') :
    s'.reactor = s.reactor ∧ s'.signalled = s.signalled ∧ s'.detected = s.detected := by
  unfold callback at h
  split_ifs at h
  · obtain ⟨ev, -, rfl⟩ := Option.map_eq_some_iff.mp h
    split_ifs <;> exact ⟨rfl, rfl, rfl⟩
  · obtain ⟨v, -, rfl⟩ := Option.map_eq_some_iff.mp h
    exact ⟨rfl, rfl, rfl⟩
  · obtain rfl := Option.some.inj h
    exact ⟨rfl, rfl, rfl⟩

/-- What a step adds to the events that a server is asked for, and to those it starts. -/
theorem signalled_step {a : Action c} (hs : s.step known a = some s') (r : c.Rank) :
    ((∀ ev sent, a = .onBcastAction r ev sent → ¬ known ev.id) ∧ s'.signalled r = s.signalled r ∧
        s'.started known r = s.started known r) ∨
      ∃ ev sent, a = .onBcastAction r ev sent ∧ known ev.id ∧ s'.signalled r = s.signalled r ++ [ev] ∧
        s'.started known r = s.started known r ++
          if s.reactor.bcastBuffers r BCAST_EVENT = none ∧ sent then [ev] else [] := by
  cases a with
  | onBcastAction p ev sent =>
    simp only [State.step, State.onBcastAction] at hs
    split_ifs at hs with hfree hknown
    · obtain ⟨reactor, hreactor, rfl⟩ := Option.map_eq_some_iff.mp hs
      have hstarted := started_onBcastAction hknown hreactor r
      by_cases hr : r = p
      · subst hr
        simp only [true_and] at hstarted
        exact .inr ⟨ev, sent, rfl, hknown, by simp, hstarted⟩
      · rw [if_neg fun hcond => hr hcond.1, List.append_nil] at hstarted
        refine .inl ⟨fun ev' sent' ha => ?_, by simp [hr], hstarted⟩
        exact absurd ((Action.onBcastAction.injEq ..).mp ha).1.symm hr
    · obtain rfl := Option.some.inj hs
      refine .inl ⟨fun ev' sent' ha => ?_, rfl, rfl⟩
      obtain ⟨-, rfl, -⟩ := (Action.onBcastAction.injEq ..).mp ha
      exact hknown
  | poll iteration input sent =>
    simp only [State.step, State.poll] at hs
    refine .inl ⟨by simp, ?_⟩
    split_ifs at hs
    · obtain ⟨reactor, hreactor, rfl⟩ := Option.map_eq_some_iff.mp hs
      refine ⟨rfl, ?_⟩
      rw [State.started, (broadcast_keeps hreactor).2, List.filterMap_append, State.started]
      split_ifs <;> simp [event, VISIT_CONNECTED, BCAST_EVENT]
    · obtain rfl := Option.some.inj hs
      exact ⟨rfl, rfl⟩
  | enter p source =>
    obtain ⟨reactor, hreactor, rfl⟩ := Option.map_eq_some_iff.mp hs
    have haccepted := BcastState.accepted_step (a := .enter p source) hreactor r
    exact .inl ⟨by simp, rfl, by simp [State.started, haccepted, BcastState.started]⟩
  | leave p =>
    obtain ⟨reactor, hreactor, hs⟩ := Option.bind_eq_some_iff.mp hs
    obtain ⟨d, -, hs⟩ := Option.bind_eq_some_iff.mp hs
    have haccepted := BcastState.accepted_step (a := .leave p) hreactor r
    obtain ⟨hsame, hsignalled, -⟩ := callback_keeps hs
    exact .inl ⟨by simp, by rw [hsignalled], by simp [State.started, hsame, haccepted, BcastState.started]⟩

/-- The condition: what VisIt wants can be sent. -/
def Sent (s : State c) : Action c → Prop
  | .poll _ input sent => (connected (s.visitstate c.leader) input).2 = true → sent = true
  | _ => True

instance (s : State c) : (a : Action c) → Decidable (Sent s a)
  | .poll _ input sent =>
    inferInstanceAs (Decidable ((connected (s.visitstate c.leader) input).2 = true → sent = true))
  | .onBcastAction _ _ _ | .enter _ _ | .leave _ => .isTrue trivial

/-- What a step adds to VisIt's inputs, and to the broadcasts about them. -/
theorem detected_step {a : Action c} (hs : s.step known a = some s') :
    ((∀ iteration input sent, a = .poll iteration input sent →
          (connected (s.visitstate c.leader) input).2 = false) ∧ s'.detected = s.detected ∧
        visits (s'.reactor.accepted c.leader) = visits (s.reactor.accepted c.leader)) ∨
      ∃ iteration input sent, a = .poll iteration input sent ∧
        (connected (s.visitstate c.leader) input).2 = true ∧
        s'.detected.length = s.detected.length + 1 ∧
        visits (s'.reactor.accepted c.leader) = visits (s.reactor.accepted c.leader) +
          if s.reactor.bcastBuffers c.leader VISIT_CONNECTED = none ∧ sent then 1 else 0 := by
  cases a with
  | onBcastAction p ev sent =>
    simp only [State.step, State.onBcastAction] at hs
    refine .inl ⟨by simp, ?_⟩
    split_ifs at hs
    · obtain ⟨reactor, hreactor, rfl⟩ := Option.map_eq_some_iff.mp hs
      refine ⟨rfl, ?_⟩
      rw [(broadcast_keeps hreactor).2, visits_append]
      split_ifs <;> simp [visits, VISIT_CONNECTED, BCAST_EVENT]
    · obtain rfl := Option.some.inj hs
      exact ⟨rfl, rfl⟩
  | poll iteration input sent =>
    simp only [State.step, State.poll] at hs
    split_ifs at hs with hfree hdetected
    · obtain ⟨reactor, hreactor, rfl⟩ := Option.map_eq_some_iff.mp hs
      refine .inr ⟨iteration, input, sent, rfl, hdetected, List.length_append, ?_⟩
      rw [(broadcast_keeps hreactor).2, visits_append]
      simp only [true_and]
      split_ifs <;> simp [visits]
    · obtain rfl := Option.some.inj hs
      refine .inl ⟨fun _ _ _ ha => ?_, rfl, rfl⟩
      obtain ⟨-, rfl, -⟩ := (Action.poll.injEq ..).mp ha
      exact Bool.eq_false_iff.mpr hdetected
  | enter p source =>
    obtain ⟨reactor, hreactor, rfl⟩ := Option.map_eq_some_iff.mp hs
    have haccepted := BcastState.accepted_step (a := .enter p source) hreactor c.leader
    exact .inl ⟨by simp, rfl, by simp [haccepted, BcastState.started]⟩
  | leave p =>
    obtain ⟨reactor, hreactor, hs⟩ := Option.bind_eq_some_iff.mp hs
    obtain ⟨d, -, hs⟩ := Option.bind_eq_some_iff.mp hs
    have haccepted := BcastState.accepted_step (a := .leave p) hreactor c.leader
    obtain ⟨hsame, -, hdetected⟩ := callback_keeps hs
    exact .inl ⟨by simp, hdetected, by simp [hsame, haccepted, BcastState.started]⟩

theorem heard_all_iff {as : List (Action c)} (hr : StepSystem.run (step known) initial as = some s) :
    s.detected.length ≤ visits (s.reactor.accepted c.leader) ↔
      StepSystem.Guarded (step known) Sent initial as := by
  refine StepSystem.run_iff_guarded
    (I := fun s => (∃ items waiting, Inv known s items waiting) ∧
      s.detected.length = visits (s.reactor.accepted c.leader))
    (P := fun s => s.detected.length ≤ visits (s.reactor.accepted c.leader))
    (fun s a s' hI hg hs => ?_) (fun s hI => hI.2.le) (fun s a s' hI hg hs hle => hg ?_)
    (fun s a s' hs hnot hle => hnot ?_) ⟨⟨_, _, inv_initial⟩, rfl⟩ hr
  · obtain ⟨⟨items, waiting, h⟩, heq⟩ := hI
    refine ⟨h.step hs, ?_⟩
    rcases detected_step hs with ⟨-, hdetected, hvisits⟩ |
      ⟨iteration, input, sent, rfl, hinput, hdetected, hvisits⟩
    · rw [hdetected, hvisits, heq]
    · rw [hdetected, hvisits, if_pos ⟨h.free (connected_eq_true hinput).1, hg hinput⟩, heq]
  · cases a with
    | poll iteration input sent =>
      intro hinput
      rcases detected_step hs with ⟨hnot, -⟩ | ⟨iteration', input', sent', ha, -, hdetected, hvisits⟩
      · rw [hnot iteration input sent rfl] at hinput
        cases hinput
      · obtain ⟨-, -, rfl⟩ := (Action.poll.injEq ..).mp ha
        by_contra hsent
        rw [hdetected, hvisits, if_neg fun hcond => hsent hcond.2, hI.2] at hle
        omega
    | _ => trivial
  · rcases detected_step hs with ⟨-, hdetected, hvisits⟩ | ⟨_, _, _, -, -, hdetected, hvisits⟩
    · rwa [hdetected, hvisits] at hle
    · rw [hdetected, hvisits] at hle
      split_ifs at hle <;> omega

/-- The servers enter the sections that serve VisIt with its inputs, each once and in order. When they have
come to rest every server has served every input in exactly the runs in which all inputs could be sent;
after one that could not, the first server does not listen to VisIt any more. -/
theorem sections_of_run {as : List (Action c)} (hr : StepSystem.run (step known) initial as = some s) :
    (∀ p, s.sections p <+: s.detected) ∧
      (s.Stalled known → ((∀ p, s.sections p = s.detected) ↔
        StepSystem.Guarded (step known) Sent initial as)) ∧
      (s.Stalled known → ¬ StepSystem.Guarded (step known) Sent initial as →
        ∀ input, (connected (s.visitstate c.leader) input).2 = false) := by
  rw [← heard_all_iff hr]
  obtain ⟨items, waiting, h⟩ := inv_of_run hr
  have hpre : ∀ p, s.sections p <+: s.detected := by
    intro p
    refine (h.behind p).trans ?_
    rcases h.visiting with ⟨-, hdetected, -⟩ | ⟨-, hdetected, -⟩
    · rw [hdetected]
    · rw [hdetected]
      exact List.prefix_append _ _
  refine ⟨hpre, fun hs => ?_, fun hs hnot input => ?_⟩
  · have hlen : ∀ p, (s.sections p).length = visits (s.reactor.accepted c.leader) := by
      intro p
      obtain ⟨haccepted, hhandled⟩ := h.refines.complete (h.stalled hs)
      rw [h.served, heard, hhandled, ← haccepted, h.visits_filter, List.map_map]
      exact congrArg visits (List.map_id _)
    constructor
    · intro heq
      rw [← hlen c.leader, heq c.leader]
    · intro hle p
      exact (hpre p).eq_of_length_le (hlen p ▸ hle)
  · rcases h.visiting with ⟨-, hdetected, haccepted⟩ | ⟨hpos, -⟩
    · exact absurd (by rw [hdetected, haccepted]) hnot
    · rw [connected, if_pos hpos]

/-! ## Two servers -/

instance (s : State c) : Decidable (s.Stalled known) :=
  inferInstanceAs (Decidable (∀ p, s.step known (.leave p) = none ∧
    ∀ source, s.step known (.enter p source) = none))

abbrev Pair := State SyncState.pair

def ask : EventBody := ⟨0, 1, 0⟩

/-- Both servers take what the second one has sent, and handle it. -/
def relayed : List (Action SyncState.pair) :=
  [.enter SyncState.pair.leader SyncState.other, .enter SyncState.other SyncState.pair.leader,
    .leave SyncState.pair.leader, .leave SyncState.other]

theorem events_ordered_relayed : ∃ s : Pair,
    StepSystem.run (step fun _ => true) initial (.onBcastAction SyncState.other ask true :: relayed) = some s ∧
      (s.Stalled (fun _ => true) ∧ ∀ p, s.ran p = [ask]) ∧
      (∃ order, Ordered (fun _ => true) s order) ∧
        ∀ r, (s.started (fun _ => true) r).Sublist (s.signalled r) := by
  obtain ⟨s, hs⟩ := Option.isSome_iff_exists.mp (by decide +kernel :
    (StepSystem.run (step fun _ => true) (initial : Pair)
      (.onBcastAction SyncState.other ask true :: relayed)).isSome)
  have hend : ((StepSystem.run (step fun _ => true) (initial : Pair)
      (.onBcastAction SyncState.other ask true :: relayed)).all fun s =>
        decide (s.Stalled (fun _ => true) ∧ ∀ p, s.ran p = [ask])) = true := by decide +kernel
  rw [hs] at hend
  exact ⟨s, hs, of_decide_eq_true hend, events_ordered hs⟩

/-- VisIt attempts to connect. -/
def visited : List (Action SyncState.pair) :=
  [.poll 0 1 true, .enter SyncState.pair.leader SyncState.pair.leader,
    .enter SyncState.other SyncState.pair.leader, .leave SyncState.pair.leader, .leave SyncState.other]

theorem sections_visited : ∃ s : Pair, StepSystem.run (step fun _ => true) initial visited = some s ∧
    (s.Stalled (fun _ => true) ∧ s.detected = [1]) ∧ (∀ p, s.sections p <+: s.detected) ∧
      (s.Stalled (fun _ => true) → ((∀ p, s.sections p = s.detected) ↔
        StepSystem.Guarded (step fun _ => true) Sent (initial : Pair) visited)) ∧
      (s.Stalled (fun _ => true) →
        ¬ StepSystem.Guarded (step fun _ => true) Sent (initial : Pair) visited →
          ∀ input, (connected (s.visitstate SyncState.pair.leader) input).2 = false) := by
  obtain ⟨s, hs⟩ := Option.isSome_iff_exists.mp (by decide +kernel :
    (StepSystem.run (step fun _ => true) (initial : Pair) visited).isSome)
  have hend : ((StepSystem.run (step fun _ => true) (initial : Pair) visited).all fun s =>
      decide (s.Stalled (fun _ => true) ∧ s.detected = [1])) = true := by decide +kernel
  rw [hs] at hend
  exact ⟨s, hs, of_decide_eq_true hend, sections_of_run hs⟩

end State

end Damaris.Broadcasts
