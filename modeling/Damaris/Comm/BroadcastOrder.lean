import Damaris.Lib.Relay
import Damaris.Comm.Broadcast
import Damaris.Comm.SyncBarrier

/-!
# One order for the broadcasts

The ranks relay the broadcasts themselves, in the order in which rank 0 takes
them; what travels are only the announcements. A rank enters the collective call
of a broadcast when it takes it, so the calls of all ranks match.
-/
namespace Damaris.Comm

open MPI2Reactor

variable {c : Topology}

/-- The call with which rank `p` enters a broadcast: the root brings the bytes. -/
def Broadcast.callAt (p : c.Rank) (b : Broadcast c) : BcastCall c :=
  ⟨b.info, if p ≠ b.root then List.replicate b.bytes.length 0 else b.bytes⟩

/-- What the callback of a broadcast is handed. -/
def Broadcast.delivery (b : Broadcast c) : Delivery c := deliver b.info b.bytes

@[simp] theorem Broadcast.callAt_info (p : c.Rank) (b : Broadcast c) :
    (b.callAt p).info = b.info := rfl

@[simp] theorem Broadcast.info_root (b : Broadcast c) : b.info.root = b.root := rfl

@[simp] theorem Broadcast.info_tag (b : Broadcast c) : b.info.tag = b.tag := rfl

@[simp] theorem Broadcast.info_count (b : Broadcast c) : b.info.count = b.bytes.length := rfl

@[simp] theorem Broadcast.broadcast_delivery (b : Broadcast c) : b.delivery.broadcast = b := rfl

/-- A callback receives the bytes of its broadcast exactly when they are as many as
an announcement has. -/
theorem Broadcast.received_delivery (b : Broadcast c) :
    b.delivery.received = some b ↔ b.bytes.length = MsgInfo.size := by
  unfold Delivery.received Broadcast.delivery deliver
  by_cases hle : MsgInfo.size ≤ b.bytes.length
  · rw [if_pos hle]
    constructor
    · intro h
      have hbytes := congrArg Broadcast.bytes (Option.some.inj h)
      have hlen : (b.bytes.take MsgInfo.size).length = b.bytes.length := congrArg List.length hbytes
      rw [List.length_take] at hlen
      omega
    · intro h
      rw [← h, List.take_length]
      rfl
  · rw [if_neg hle]
    exact iff_of_false (Option.some_ne_none _).symm fun h => hle h.ge

namespace BcastState

variable {s s' : BcastState c} {items : Relay.State c.Rank (Broadcast c)}
  {waiting : c.Rank → List (Broadcast c)}

/-- The saved buffers are those of the broadcasts that the rank has started and not yet entered. -/
def Saved (p : c.Rank) (bcastBuffers : ℤ → Option (List UInt8))
    (started taken : List (Broadcast c)) : Prop :=
  ∃ pending : List (ℤ × List UInt8),
    started = taken.filter (fun b => b.root = p) ++ pending.map (fun x => ⟨p, x.1, x.2⟩) ∧
      (pending.map Prod.fst).Nodup ∧ ∀ tag buf, bcastBuffers tag = some buf ↔ (tag, buf) ∈ pending

/-- A rank has handled the broadcasts it has taken, all but the one it is inside of. -/
def Handles (p : c.Rank) (inside : Option (BcastCall c)) (handled : List (Delivery c))
    (taken : List (Broadcast c)) : Prop :=
  ∃ done, handled = done.map Broadcast.delivery ∧
    ((inside = none ∧ taken = done) ∨ ∃ b, inside = some (b.callAt p) ∧ taken = done ++ [b])

/-- The state is that of a relay of broadcasts, with those that rank 0 has not yet
taken waiting at their senders. -/
structure Refines (s : BcastState c) (items : Relay.State c.Rank (Broadcast c))
    (waiting : c.Rank → List (Broadcast c)) : Prop where
  flows : Relay.Flows c.tree items
  announced : ∀ r, s.net (announceLink r) = (waiting r).map Broadcast.info
  forwarded : ∀ q, q ≠ c.leader → s.net (bcastLink q) = (items.pipe q).map Broadcast.info
  rooted : ∀ r, ∀ b ∈ s.accepted r, b.root = r
  accepted : ∀ r, s.accepted r = (items.taken c.leader).filter (fun b => b.root = r) ++ waiting r
  calls : ∀ p, s.calls p = (items.taken p).map (Broadcast.callAt p)
  saved : ∀ p, Saved p (s.bcastBuffers p) (s.accepted p) (items.taken p)
  handled : ∀ p, Handles p (s.inside p) (s.handled p) (items.taken p)

theorem refines_initial : Refines (initial : BcastState c) ⟨fun _ => [], fun _ => []⟩ fun _ => [] where
  flows _ _ := rfl
  announced _ := rfl
  forwarded _ _ := rfl
  rooted _ b hb := absurd hb List.not_mem_nil
  accepted _ := rfl
  calls _ := rfl
  saved _ := ⟨[], rfl, List.nodup_nil, by simp [initial]⟩
  handled _ := ⟨[], rfl, .inl ⟨rfl, rfl⟩⟩

/-! ## `Broadcast` -/

theorem announceLink_inj {p q : c.Rank} : announceLink p = announceLink q ↔ p = q := by
  constructor
  · intro h
    exact ((Link.mk.injEq ..).mp h).2.1
  · rintro rfl
    rfl

theorem bcastLink_ne_announceLink {p q : c.Rank} (hq : q ≠ c.leader) :
    bcastLink q ≠ announceLink p := fun h => hq ((Link.mk.injEq ..).mp h).2.2

/-- A broadcast that is not accepted leaves the saved buffers as they are. -/
theorem broadcast_refused {p : c.Rank} {tag : ℤ} {buf : List UInt8} {sent : Bool}
    {buffers : ℤ → Option (List UInt8)}
    (h : (MPI2Reactor.broadcast p tag buf sent buffers).returned = false) :
    MPI2Reactor.broadcast p tag buf sent buffers = ⟨buffers, [], false⟩ := by
  unfold MPI2Reactor.broadcast at h ⊢
  by_cases hsaved : (buffers tag).isSome
  · rw [if_pos hsaved]
  · rw [if_neg hsaved] at h ⊢
    have hnone : buffers tag = none := Option.not_isSome_iff_eq_none.mp hsaved
    cases sent with
    | true => exact absurd h.symm Bool.false_ne_true
    | false => simp [← hnone]

/-- A broadcast is accepted when its tag is free and its announcement goes out. -/
theorem broadcast_accepted {p : c.Rank} {tag : ℤ} {buf : List UInt8} {sent : Bool}
    {buffers : ℤ → Option (List UInt8)}
    (h : (MPI2Reactor.broadcast p tag buf sent buffers).returned = true) :
    buffers tag = none ∧ MPI2Reactor.broadcast p tag buf sent buffers =
      ⟨Function.update buffers tag (some buf), [(announceLink p, ⟨p, tag, buf.length⟩)], true⟩ := by
  unfold MPI2Reactor.broadcast at h ⊢
  by_cases hsaved : (buffers tag).isSome
  · rw [if_pos hsaved] at h
    exact absurd h Bool.false_ne_true
  · rw [if_neg hsaved] at h ⊢
    cases sent with
    | true => exact ⟨Option.not_isSome_iff_eq_none.mp hsaved, rfl⟩
    | false => exact absurd h Bool.false_ne_true

/-- A new broadcast of the rank waits behind the others. -/
theorem Saved.start {p : c.Rank} {buffers : ℤ → Option (List UInt8)}
    {started taken : List (Broadcast c)} (h : Saved p buffers started taken) {tag : ℤ}
    (hfree : buffers tag = none) (buf : List UInt8) :
    Saved p (Function.update buffers tag (some buf)) (started ++ [⟨p, tag, buf⟩]) taken := by
  obtain ⟨pending, hstarted, hnodup, hmem⟩ := h
  have hnew : ∀ x ∈ pending, x.1 ≠ tag := by
    rintro ⟨tag', buf'⟩ hx rfl
    exact Option.some_ne_none _ (((hmem _ _).mpr hx).symm.trans hfree)
  refine ⟨pending ++ [(tag, buf)], by simp [hstarted], ?_, fun tag' buf' => ?_⟩
  · rw [List.map_append, List.nodup_append]
    refine ⟨hnodup, List.nodup_singleton _, ?_⟩
    intro a ha b hb
    obtain ⟨x, hx, rfl⟩ := List.mem_map.mp ha
    rw [List.mem_singleton.mp hb]
    exact hnew x hx
  · by_cases htag : tag' = tag
    · subst htag
      have hnot : (tag', buf') ∉ pending := fun hx => hnew _ hx rfl
      simp [hnot, eq_comm]
    · rw [Function.update_of_ne htag, hmem]
      simp [htag]

theorem Refines.broadcast (h : Refines s items waiting) {p : c.Rank} {tag : ℤ} {buf : List UInt8}
    {sent : Bool} (hs : s.broadcast p tag buf sent = some s') :
    ∃ waiting', Refines s' items waiting' := by
  unfold BcastState.broadcast at hs
  split_ifs at hs with hfree
  obtain rfl := Option.some.inj hs
  cases hret : (MPI2Reactor.broadcast p tag buf sent (s.bcastBuffers p)).returned with
  | false =>
    refine ⟨waiting, ?_⟩
    rw [broadcast_refused hret]
    simpa using h
  | true =>
    obtain ⟨htag, heq⟩ := broadcast_accepted hret
    refine ⟨Function.update waiting p (waiting p ++ [⟨p, tag, buf⟩]), ?_⟩
    rw [heq]
    refine { h with
      announced := fun r => ?_, forwarded := fun q hq => ?_, rooted := fun r b hb => ?_
      accepted := fun r => ?_, saved := fun r => ?_ }
    · simp only [Fifo.pushAll_cons, Fifo.pushAll_nil, Fifo.push]
      by_cases hr : r = p
      · subst hr
        rw [Function.update_self, Function.update_self, h.announced, List.map_append]
        rfl
      · rw [Function.update_of_ne (fun he => hr (announceLink_inj.mp he)),
          Function.update_of_ne hr, h.announced]
    · simp only [Fifo.pushAll_cons, Fifo.pushAll_nil, Fifo.push]
      rw [Function.update_of_ne (bcastLink_ne_announceLink hq), h.forwarded q hq]
    · by_cases hr : r = p
      · subst hr
        simp only [Function.update_self, if_pos, List.mem_append, List.mem_singleton] at hb
        rcases hb with hb | rfl
        · exact h.rooted r b hb
        · rfl
      · exact h.rooted r b (by simpa [hr] using hb)
    · by_cases hr : r = p
      · subst hr
        simp [h.accepted]
      · simp only [Function.update_of_ne hr, h.accepted]
    · by_cases hr : r = p
      · subst hr
        simpa using (h.saved r).start htag buf
      · simpa [hr] using h.saved r

/-! ## Entering `MPI_Bcast` -/

/-- The pieces of a taken announcement: the broadcast it announces is the next of
its stream. -/
theorem Refines.next (h : Refines s items waiting) {p source : c.Rank} {info : MsgInfo c}
    {rest : List (MsgInfo c)} (hlisten : ListensBcast p source)
    (hpop : s.net ⟨.BCAST, source, p⟩ = info :: rest) :
    ∃ b, b.info = info ∧
      ((p = c.leader ∧ ∃ after, waiting source = b :: after ∧ after.map Broadcast.info = rest) ∨
        (p ≠ c.leader ∧ source = c.parent p ∧
          ∃ after, items.pipe p = b :: after ∧ after.map Broadcast.info = rest)) := by
  by_cases hp : p = c.leader
  · subst hp
    have hnet := (h.announced source).symm.trans hpop
    obtain ⟨b, after, hw, hb, hrest⟩ := List.map_eq_cons_iff.mp hnet
    exact ⟨b, hb, .inl ⟨rfl, after, hw, hrest⟩⟩
  · obtain rfl : source = c.parent p := hlisten.resolve_left hp
    have hnet := (h.forwarded p hp).symm.trans hpop
    obtain ⟨b, after, hw, hb, hrest⟩ := List.map_eq_cons_iff.mp hnet
    exact ⟨b, hb, .inr ⟨hp, rfl, after, hw, hrest⟩⟩

/-- A rank that enters a broadcast of another one saves what it had saved. -/
theorem Saved.pass {p : c.Rank} {buffers : ℤ → Option (List UInt8)}
    {started taken : List (Broadcast c)} (h : Saved p buffers started taken) {b : Broadcast c}
    (hb : b.root ≠ p) : Saved p buffers started (taken ++ [b]) := by
  obtain ⟨pending, hstarted, hrest⟩ := h
  exact ⟨pending, by simp [hstarted, hb], hrest⟩

/-- A rank that enters its own broadcast has its bytes saved, and forgets them. -/
theorem Saved.own {p : c.Rank} {buffers : ℤ → Option (List UInt8)}
    {started taken : List (Broadcast c)} (h : Saved p buffers started taken) {b : Broadcast c}
    (hb : b.root = p) (hnext : (taken ++ [b]).filter (fun b => b.root = p) <+: started) :
    buffers b.tag = some b.bytes ∧
      Saved p (Function.update buffers b.tag none) started (taken ++ [b]) := by
  obtain ⟨pending, hstarted, hnodup, hmem⟩ := h
  have hown : (taken ++ [b]).filter (fun b => b.root = p) =
      taken.filter (fun b => b.root = p) ++ [b] := by
    simp [hb]
  obtain ⟨later, hlater⟩ := hnext
  rw [hstarted, hown, List.append_assoc] at hlater
  have hpending := (List.append_cancel_left hlater).symm
  obtain ⟨x, rest, rfl, hx, hrest⟩ := List.map_eq_cons_iff.mp hpending
  subst hx
  obtain ⟨hfirst, hnodup⟩ := List.nodup_cons.mp hnodup
  refine ⟨(hmem _ _).mpr List.mem_cons_self, rest, ?_, hnodup, fun tag buf => ?_⟩
  · rw [hown, hstarted]
    simp
  · by_cases htag : tag = x.1
    · subst htag
      have hnot : (x.1, buf) ∉ rest := fun hm =>
        hfirst (List.mem_map.mpr ⟨_, hm, rfl⟩)
      simp [hnot]
    · have hne : (tag, buf) ≠ x := fun he => htag (congrArg Prod.fst he)
      rw [Function.update_of_ne htag, hmem, List.mem_cons, or_iff_right hne]

/-- The state of a rank that takes a broadcast, when the announcements in flight are right. -/
theorem Refines.take (h : Refines s items waiting) {p : c.Rank} {b : Broadcast c}
    (hfree : s.inside p = none) (hhead : p ≠ c.leader → (items.pipe p).head? = some b)
    {net : Fifo.Channels (Link c) (MsgInfo c)} {waiting' : c.Rank → List (Broadcast c)}
    (hannounced : ∀ r, net (announceLink r) = (waiting' r).map Broadcast.info)
    (hforwarded : ∀ q, q ≠ c.leader →
      net (bcastLink q) = ((items.pass c.tree p b).pipe q).map Broadcast.info)
    (haccepted : ∀ r, s.accepted r =
      ((items.pass c.tree p b).taken c.leader).filter (fun b => b.root = r) ++ waiting' r) :
    Refines { s with
      bcastBuffers := Function.update s.bcastBuffers p (eraseBuffer p b.info (s.bcastBuffers p))
      net := net
      inside := Function.update s.inside p
        (some ⟨b.info, bcastBuffer p b.info (s.bcastBuffers p)⟩)
      calls := Function.update s.calls p
        (s.calls p ++ [⟨b.info, bcastBuffer p b.info (s.bcastBuffers p)⟩]) }
      (items.pass c.tree p b) waiting' := by
  have hflows : Relay.Flows c.tree (items.pass c.tree p b) := h.flows.pass (Relay.passes_pass hhead)
  have htaken := Relay.pass_taken (T := c.tree) items p b
  -- the rank's own broadcasts are taken in the order in which they were started
  have hnext : (items.taken p ++ [b]).filter (fun b => b.root = p) <+: s.accepted p := by
    have hle := (hflows.le_root p).filter fun b => decide (b.root = p)
    rw [htaken, Function.update_self] at hle
    rw [haccepted p]
    exact hle.trans (List.prefix_append _ _)
  have hsaved : Saved p (eraseBuffer p b.info (s.bcastBuffers p)) (s.accepted p)
      (items.taken p ++ [b]) ∧ bcastBuffer p b.info (s.bcastBuffers p) = (b.callAt p).buffer := by
    simp only [eraseBuffer, bcastBuffer, Broadcast.callAt, Broadcast.info_root,
      Broadcast.info_tag, Broadcast.info_count]
    by_cases hb : b.root = p
    · obtain ⟨hbytes, hsaved⟩ := (h.saved p).own hb hnext
      simp only [hb, ne_eq, not_true_eq_false, if_false]
      exact ⟨hsaved, by rw [hbytes, Option.getD_some]⟩
    · simp only [ne_eq, Ne.symm hb, not_false_eq_true, if_true]
      exact ⟨(h.saved p).pass hb, by rw [Int.toNat_natCast]⟩
  have hcall : (⟨b.info, bcastBuffer p b.info (s.bcastBuffers p)⟩ : BcastCall c) = b.callAt p := by
    rw [hsaved.2]
    rfl
  rw [hcall]
  refine ⟨hflows, hannounced, hforwarded, h.rooted, haccepted, fun q => ?_, fun q => ?_, fun q => ?_⟩
  · by_cases hq : q = p
    · subst hq
      simp [h.calls]
    · simp [hq, h.calls]
  · by_cases hq : q = p
    · subst hq
      simpa [htaken] using hsaved.1
    · simpa [htaken, hq] using h.saved q
  · by_cases hq : q = p
    · subst hq
      obtain ⟨done, hdone, hin⟩ := h.handled q
      have hall : items.taken q = done := by
        rcases hin with ⟨-, hall⟩ | ⟨b', hb', -⟩
        · exact hall
        · rw [hfree] at hb'
          exact absurd hb'.symm (Option.some_ne_none _)
      exact ⟨done, hdone, .inr ⟨b, by simp, by simp [hall]⟩⟩
    · simpa [htaken, hq] using h.handled q

/-- What a rank forwards is no announcement: rank 0 is nobody's child. -/
theorem announced_of_forward (p r : c.Rank) (info : MsgInfo c)
    (net : Fifo.Channels (Link c) (MsgInfo c)) :
    Fifo.pushAll net ((c.children p).map fun q => (⟨.BCAST, p, q⟩, info)) (announceLink r) =
      net (announceLink r) := by
  have hleader : c.leader ∉ c.children p := fun hm => (c.mem_children.mp hm).1 rfl
  rw [announceLink, pushAll_forward, if_neg fun hr => hleader hr.2, List.append_nil]

theorem pass_pipe_children (items : Relay.State c.Rank (Broadcast c)) (p q : c.Rank)
    (b : Broadcast c) :
    (items.pass c.tree p b).pipe q = if q = p then (items.pipe p).tail
      else if q ∈ c.children p then items.pipe q ++ [b] else items.pipe q := by
  rw [Relay.pass_pipe, if_congr Iff.rfl rfl (if_congr c.mem_tree_children rfl rfl)]

theorem Refines.enter (h : Refines s items waiting) {p source : c.Rank}
    (hs : s.enter p source = some s') : ∃ items' waiting', Refines s' items' waiting' := by
  unfold BcastState.enter at hs
  split_ifs at hs with henter
  obtain ⟨hfree, hlisten⟩ := henter
  obtain ⟨⟨info, net⟩, hpop, rfl⟩ := Option.map_eq_some_iff.mp hs
  obtain ⟨rest, hhead, rfl⟩ := Fifo.pop_eq_some.mp hpop
  obtain ⟨b, rfl, hnext⟩ := h.next hlisten hhead
  have hself : p ∉ c.children p := fun hp =>
    c.tree.parent_ne (c.mem_children.mp hp).1 (c.mem_children.mp hp).2
  have hforwarded : ∀ q, Fifo.pushAll (Function.update s.net ⟨.BCAST, source, p⟩ rest)
      ((c.children p).map fun q => (⟨.BCAST, p, q⟩, b.info)) (bcastLink q) =
        Function.update s.net ⟨.BCAST, source, p⟩ rest (bcastLink q) ++
          if q ∈ c.children p then [b.info] else [] := by
    exact fun q => pushAll_children .BCAST p q b.info _
  have hother : ∀ q, q ≠ p → bcastLink q ≠ ⟨.BCAST, source, p⟩ := fun q hq he =>
    hq ((Link.mk.injEq ..).mp he).2.2
  rcases hnext with ⟨rfl, after, hwaiting, rfl⟩ | ⟨hp, rfl, after, hafter, rfl⟩
  · -- rank 0 takes an announcement of some rank
    have hroot : b.root = source := by
      refine h.rooted source b ?_
      rw [h.accepted, hwaiting]
      simp
    refine ⟨_, Function.update waiting source after, h.take hfree (fun hl => absurd rfl hl)
      (fun r => ?_) (fun q hq => ?_) fun r => ?_⟩
    · rw [announced_of_forward]
      by_cases hr : r = source
      · subst hr
        exact (Function.update_self ..).trans (by rw [Function.update_self])
      · have hne : announceLink r ≠ ⟨.BCAST, source, c.leader⟩ := fun he =>
          hr ((Link.mk.injEq ..).mp he).2.1
        rw [Function.update_of_ne hr, ← h.announced, Function.update_of_ne hne]
    · rw [hforwarded, pass_pipe_children, if_neg hq, Function.update_of_ne (hother q hq),
        h.forwarded q hq]
      by_cases hchild : q ∈ c.children c.leader <;> simp [hchild]
    · rw [h.accepted, Relay.pass_taken, Function.update_self]
      by_cases hr : r = source
      · subst hr
        simp [hwaiting, hroot]
      · have hne : b.root ≠ r := fun he => hr (he.symm.trans hroot)
        simp [hr, hne]
  · -- another rank takes what its parent forwarded
    refine ⟨_, waiting, h.take hfree (fun _ => by rw [hafter]; rfl) (fun r => ?_) (fun q hq => ?_)
      fun r => ?_⟩
    · have hne : announceLink r ≠ ⟨.BCAST, c.parent p, p⟩ := fun he =>
        hp ((Link.mk.injEq ..).mp he).2.2.symm
      rw [announced_of_forward, Function.update_of_ne hne, h.announced]
    · rw [hforwarded, pass_pipe_children]
      by_cases hqp : q = p
      · subst hqp
        rw [if_neg hself, if_pos rfl, hafter, List.append_nil]
        exact Function.update_self ..
      · rw [if_neg hqp, Function.update_of_ne (hother q hqp), h.forwarded q hq]
        by_cases hchild : q ∈ c.children p <;> simp [hchild]
    · rw [h.accepted, Relay.pass_taken, Function.update_of_ne (Ne.symm hp)]

/-! ## Leaving `MPI_Bcast` -/

/-- The collective call gives every rank the bytes of its broadcast: the call of the root
that has the same place in its order is for the same broadcast. -/
theorem Refines.bcastData (h : Refines s items waiting) {p : c.Rank} {done : List (Broadcast c)}
    {b : Broadcast c} (htaken : items.taken p = done ++ [b]) {data : List UInt8}
    (hdata : s.bcastData p (b.callAt p) = some data) : data = b.bytes := by
  unfold BcastState.bcastData at hdata
  by_cases hp : p = b.root
  · rw [if_pos (show p = (b.callAt p).info.root from hp)] at hdata
    obtain rfl := Option.some.inj hdata
    simp [Broadcast.callAt, hp]
  · have hlast : (s.calls p).length - 1 = done.length := by
      simp [h.calls, htaken]
    rw [if_neg (show ¬ p = (b.callAt p).info.root from hp), hlast, h.calls,
      List.getElem?_map] at hdata
    cases hcall : (items.taken (b.callAt p).info.root)[done.length]? with
    | none =>
      rw [hcall] at hdata
      exact absurd hdata.symm (Option.some_ne_none _)
    | some b' =>
      have hb : (items.taken p)[done.length]? = some b := by simp [htaken]
      obtain rfl : b' = b := h.flows.agree hcall hb
      rw [hcall] at hdata
      simpa [Broadcast.callAt, eq_comm] using hdata

theorem Refines.leave (h : Refines s items waiting) {p : c.Rank} (hs : s.leave p = some s') :
    Refines s' items waiting := by
  unfold BcastState.leave at hs
  obtain ⟨call, hin, hs⟩ := Option.bind_eq_some_iff.mp hs
  obtain ⟨data, hdata, rfl⟩ := Option.map_eq_some_iff.mp hs
  obtain ⟨done, hdone, hnone | ⟨b, hb, htaken⟩⟩ := h.handled p
  · rw [hin] at hnone
    exact absurd hnone.1 (Option.some_ne_none _)
  · obtain rfl : call = b.callAt p := Option.some.inj (hin.symm.trans hb)
    obtain rfl := h.bcastData htaken hdata
    refine { h with handled := fun q => ?_ }
    by_cases hq : q = p
    · subst hq
      exact ⟨done ++ [b], by simp [hdone, Broadcast.delivery], .inl ⟨by simp, htaken⟩⟩
    · simpa [hq] using h.handled q

theorem Refines.step (h : Refines s items waiting) {a : BcastAction c} (hs : s.step a = some s') :
    ∃ items' waiting', Refines s' items' waiting' := by
  cases a with
  | broadcast p tag buf sent => exact ⟨items, h.broadcast hs⟩
  | enter p source => exact h.enter hs
  | leave p => exact ⟨items, waiting, h.leave hs⟩

theorem refines_of_run {as : List (BcastAction c)} (hr : StepSystem.run step initial as = some s) :
    ∃ items waiting, Refines s items waiting := by
  refine StepSystem.run_invariant (I := fun s => ∃ items waiting, Refines s items waiting) ?_
    ⟨_, _, refines_initial⟩ hr
  rintro s a s' ⟨items, waiting, h⟩ hs
  exact h.step hs

/-- A rank inside a collective call that all have entered can leave it: the calls match. -/
theorem Refines.isSome_leave (h : Refines s items waiting) {p : c.Rank} (hin : s.inside p ≠ none)
    (hall : ∀ q, (s.calls p).length ≤ (s.calls q).length) : (s.leave p).isSome := by
  obtain ⟨done, -, ⟨hnone, -⟩ | ⟨b, hb, htaken⟩⟩ := h.handled p
  · exact absurd hnone hin
  · have hdata : ∃ data, s.bcastData p (b.callAt p) = some data := by
      unfold BcastState.bcastData
      by_cases hp : p = b.root
      · exact ⟨_, if_pos hp⟩
      · have hlast : (s.calls p).length - 1 = done.length := by
          simp [h.calls, htaken]
        have hlt : done.length < (items.taken b.root).length := by
          have hle := hall b.root
          simp only [h.calls, List.length_map, htaken, List.length_append, List.length_singleton] at hle
          omega
        obtain ⟨b', hb'⟩ : ∃ b', (items.taken b.root)[done.length]? = some b' :=
          ⟨_, List.getElem?_eq_getElem hlt⟩
        have hlast' : (items.taken p)[done.length]? = some b := by simp [htaken]
        obtain rfl : b' = b := h.flows.agree hb' hlast'
        rw [if_neg (show ¬ p = (b'.callAt p).info.root from hp), hlast, h.calls, List.getElem?_map]
        simp [hb']
    obtain ⟨data, hdata⟩ := hdata
    rw [BcastState.leave, hb, Option.bind_some, hdata]
    rfl

/-- As long as the ranks have not come to rest, one of them can take a step. -/
theorem Refines.moves (h : Refines s items waiting) :
    s.Stalled ∨ (∃ p source, (s.enter p source).isSome) ∨ ∃ p, (s.leave p).isSome := by
  by_contra hnot
  obtain ⟨hmoving, hnot⟩ := not_or.mp hnot
  obtain ⟨henter, hleave⟩ := not_or.mp hnot
  refine hmoving ⟨fun p source hfree hlisten => ?_, fun p hin => ?_⟩
  · cases hnet : s.net ⟨.BCAST, source, p⟩ with
    | nil => rfl
    | cons info rest =>
      refine absurd ⟨p, source, ?_⟩ henter
      rw [BcastState.enter, if_pos ⟨hfree, hlisten⟩, Fifo.pop_eq_some.mpr ⟨rest, hnet, rfl⟩]
      rfl
  · by_contra hall
    exact hleave ⟨p, h.isSome_leave hin fun q => not_lt.mp fun hlt => hall ⟨q, hlt⟩⟩

/-! ## What the callbacks receive -/

/-- Once nothing more happens, every rank has taken every broadcast. -/
theorem Refines.complete (h : Refines s items waiting) (hstalled : s.Stalled) :
    (∀ r, (items.taken c.leader).filter (fun b => b.root = r) = s.accepted r) ∧
      ∀ p, s.handled p = (items.taken c.leader).map Broadcast.delivery := by
  have hlength : ∀ p, (s.calls p).length = (items.taken p).length := fun p => by simp [h.calls]
  have hidle : ∀ q, (∀ p, (items.taken q).length ≤ (items.taken p).length) →
      s.inside q = none := by
    intro q hmin
    by_contra hin
    obtain ⟨p, hp⟩ := hstalled.blocked q hin
    rw [hlength, hlength] at hp
    exact absurd (hmin p) (not_le.mpr hp)
  have : Nonempty c.Rank := ⟨c.leader⟩
  have hlevel : ∀ p, items.taken p = items.taken c.leader := by
    refine h.flows.level fun q hq hmin => ?_
    have hnet := hstalled.free q (c.parent q) (hidle q hmin) (.inr rfl)
    exact List.map_eq_nil_iff.mp ((h.forwarded q hq).symm.trans hnet)
  have hfree : ∀ q, s.inside q = none := fun q => hidle q fun p => by rw [hlevel q, hlevel p]
  refine ⟨fun r => ?_, fun p => ?_⟩
  · have hnet := hstalled.free c.leader r (hfree _) (.inl rfl)
    have hwaiting : waiting r = [] := List.map_eq_nil_iff.mp ((h.announced r).symm.trans hnet)
    rw [h.accepted, hwaiting, List.append_nil]
  · obtain ⟨done, hdone, ⟨-, htaken⟩ | ⟨b, hb, -⟩⟩ := h.handled p
    · rw [hdone, ← htaken, hlevel]
    · rw [hfree p] at hb
      exact absurd hb.symm (Option.some_ne_none _)

/-- What a rank has handled are the first broadcasts of the order. -/
theorem Refines.handled_le (h : Refines s items waiting) (p : c.Rank) :
    ∃ done, s.handled p = done.map Broadcast.delivery ∧ done <+: items.taken c.leader := by
  obtain ⟨done, hdone, ⟨-, htaken⟩ | ⟨b, -, htaken⟩⟩ := h.handled p
  · exact ⟨done, hdone, htaken ▸ h.flows.le_root p⟩
  · refine ⟨done, hdone, List.IsPrefix.trans ?_ (h.flows.le_root p)⟩
    rw [htaken]
    exact List.prefix_append _ _

theorem Refines.follows (h : Refines s items waiting) : s.Follows (items.taken c.leader) := by
  have hbroadcast : Delivery.broadcast ∘ Broadcast.delivery (c := c) = id := rfl
  have hinfo : ∀ p, (s.calls p).map BcastCall.info = (items.taken p).map Broadcast.info := by
    intro p
    rw [h.calls, List.map_map]
    rfl
  refine ⟨hinfo c.leader, fun p => ?_, fun p => ?_, fun r => ?_, fun hstalled => ?_⟩
  · rw [hinfo]
    exact (h.flows.le_root p).map _
  · obtain ⟨done, hdone, hle⟩ := h.handled_le p
    rw [hdone, List.map_map, hbroadcast, List.map_id]
    exact hle
  · rw [h.accepted]
    exact List.prefix_append _ _
  · obtain ⟨haccepted, hhandled⟩ := h.complete hstalled
    refine ⟨haccepted, fun p => ?_⟩
    rw [hhandled, List.map_map, hbroadcast, List.map_id]

/-- The callbacks receive the bytes of their broadcasts exactly as long as each
that was handled has as many bytes as an announcement. -/
theorem Refines.received_iff (h : Refines s items waiting) (p : c.Rank) :
    (∀ d ∈ s.handled p, d.received = some d.broadcast) ↔
      ∀ d ∈ s.handled p, d.buffer.length = MsgInfo.size := by
  obtain ⟨done, hdone, -⟩ := h.handled_le p
  rw [hdone]
  refine forall₂_congr fun d hd => ?_
  obtain ⟨b, -, rfl⟩ := List.mem_map.mp hd
  exact b.received_delivery

/-- The broadcast that a step starts: a call of `Broadcast` that returns true. -/
def started (s : BcastState c) : BcastAction c → List (Broadcast c)
  | .broadcast p tag buf sent =>
    if (MPI2Reactor.broadcast (c := c) p tag buf sent (s.bcastBuffers p)).returned then
      [⟨p, tag, buf⟩] else []
  | _ => []

/-- A broadcast that is started has as many bytes as an announcement. -/
def FitsAnnouncement (s : BcastState c) (a : BcastAction c) : Prop :=
  ∀ b ∈ s.started a, b.bytes.length = MsgInfo.size

instance (s : BcastState c) (a : BcastAction c) : Decidable (s.FitsAnnouncement a) :=
  inferInstanceAs (Decidable (∀ b ∈ s.started a, b.bytes.length = MsgInfo.size))

/-- The broadcasts accepted so far have as many bytes as an announcement. -/
def AllFit (s : BcastState c) : Prop := ∀ r, ∀ b ∈ s.accepted r, b.bytes.length = MsgInfo.size

theorem accepted_step {a : BcastAction c} (hs : s.step a = some s') (r : c.Rank) :
    s'.accepted r = s.accepted r ++ (s.started a).filter fun b => b.root = r := by
  cases a with
  | broadcast p tag buf sent =>
    have hs' : s.broadcast p tag buf sent = some s' := hs
    unfold BcastState.broadcast at hs'
    split_ifs at hs'
    obtain rfl := Option.some.inj hs'
    simp only [started]
    cases hret : (MPI2Reactor.broadcast (c := c) p tag buf sent (s.bcastBuffers p)).returned with
    | false => simp
    | true =>
      by_cases hr : r = p
      · subst hr
        simp
      · simp [hr, Ne.symm hr]
  | enter p source =>
    have hs' : s.enter p source = some s' := hs
    unfold BcastState.enter at hs'
    split_ifs at hs'
    obtain ⟨_, -, rfl⟩ := Option.map_eq_some_iff.mp hs'
    simp [started]
  | leave p =>
    have hs' : s.leave p = some s' := hs
    unfold BcastState.leave at hs'
    obtain ⟨_, -, hs'⟩ := Option.bind_eq_some_iff.mp hs'
    obtain ⟨_, -, rfl⟩ := Option.map_eq_some_iff.mp hs'
    simp [started]

/-- Whether all accepted broadcasts fit is decided by the calls of the run. -/
theorem allFit_iff_guarded {as : List (BcastAction c)}
    (hr : StepSystem.run step initial as = some s) :
    AllFit s ↔ StepSystem.Guarded step FitsAnnouncement initial as := by
  refine StepSystem.run_iff_guarded (I := AllFit) ?_ (fun _ h => h) ?_ ?_
    (fun r b hb => absurd hb List.not_mem_nil) hr
  · intro s a s' h hfits hs r b hb
    rw [accepted_step hs, List.mem_append] at hb
    exact hb.elim (h r b) fun hb => hfits b (List.mem_filter.mp hb).1
  · intro s a s' h hfits hs h'
    refine hfits fun b hb => h' b.root b ?_
    rw [accepted_step hs]
    exact List.mem_append_right _ (List.mem_filter.mpr ⟨hb, by simp⟩)
  · intro s a s' hs hnot h'
    refine hnot fun r b hb => h' r b ?_
    rw [accepted_step hs]
    exact List.mem_append_left _ hb

/-- In every run the ranks handle the broadcasts in one order and enter matching collective
calls, and go on until all broadcasts are handled. The callbacks receive the bytes when every accepted broadcast
has as many as an announcement, and in the end only then. -/
theorem uniform_iff_fits {as : List (BcastAction c)}
    (hr : StepSystem.run step initial as = some s) :
    (∃ order, s.Follows order) ∧
      (s.Stalled ∨ (∃ p source, (s.enter p source).isSome) ∨ ∃ p, (s.leave p).isSome) ∧
      (StepSystem.Guarded step FitsAnnouncement initial as → s.Uniform) ∧
      (s.Stalled → s.Uniform → StepSystem.Guarded step FitsAnnouncement initial as) := by
  obtain ⟨items, waiting, h⟩ := refines_of_run hr
  rw [← allFit_iff_guarded hr]
  refine ⟨⟨_, h.follows⟩, h.moves, fun hfit => ⟨⟨_, h.follows⟩, fun p => ?_⟩,
    fun hstalled huniform r b hb => ?_⟩
  · refine (h.received_iff p).mpr fun d hd => ?_
    obtain ⟨done, hdone, hle⟩ := h.handled_le p
    rw [hdone] at hd
    obtain ⟨b, hb, rfl⟩ := List.mem_map.mp hd
    refine hfit b.root b ?_
    rw [h.accepted]
    exact List.mem_append_left _ (List.mem_filter.mpr ⟨hle.subset hb, by simp⟩)
  · obtain ⟨haccepted, hhandled⟩ := h.complete hstalled
    rw [← haccepted] at hb
    have hd : b.delivery ∈ s.handled r := by
      rw [hhandled]
      exact List.mem_map_of_mem (List.mem_filter.mp hb).1
    exact (h.received_iff r).mp (huniform.2 r) _ hd

/-- Rank 1 of two broadcasts `buf` under the tag 42, and both ranks handle it. -/
def pairBroadcast (buf : List UInt8) : List (BcastAction SyncState.pair) :=
  [.broadcast SyncState.other 42 buf true, .enter SyncState.pair.leader SyncState.other,
    .enter SyncState.other SyncState.pair.leader, .leave SyncState.other,
    .leave SyncState.pair.leader]

theorem uniform_pairBroadcast : ∃ s,
    StepSystem.run step initial (pairBroadcast (List.replicate 12 7)) = some s ∧ s.Uniform := by
  obtain ⟨s, hs⟩ := Option.isSome_iff_exists.mp (by decide :
    (StepSystem.run step initial (pairBroadcast (List.replicate 12 7))).isSome)
  exact ⟨s, hs, (uniform_iff_fits hs).2.2.1 (by decide)⟩

/-- The alphabet and a zero byte: the callbacks are told of twelve bytes. -/
theorem alphabet_truncated : ¬ ∀ (c : Topology) (as : List (BcastAction c)) (s : BcastState c),
    StepSystem.run step initial as = some s → s.Uniform := by
  intro hall
  have huniform := (hall SyncState.pair
    (pairBroadcast ((List.range 26).map (fun i => UInt8.ofNat (65 + i)) ++ [0])) _ rfl).2
  have hreceived := huniform SyncState.pair.leader _ List.mem_cons_self
  exact absurd hreceived (by decide)

end BcastState
end Damaris.Comm
