import Damaris.Comm.BroadcastOrder

/-!
# `Reactor::Dispatch`

A call sends two messages to its destination: an announcement under the MPI tag
`DISPATCH`, and the data under the tag of the call. The destination takes an
announcement from anybody, then waits in `MPI_Recv` for the data and runs the
callback bound to the tag. Sends do not block here, and an MPI call that fails ends the
program.
-/
namespace Damaris.Comm

/-- A call of `Dispatch`: `bytes` are the `count` bytes at `buf`. -/
structure Call (c : Topology) where
  tag : ℤ
  dest : c.Rank
  bytes : List UInt8
  deriving DecidableEq

/-- What an MPI message carries. -/
inductive Packet (c : Topology)
  | info (info : MsgInfo c)
  | data (bytes : List UInt8)

/-- The messages between two ranks under one MPI tag arrive in order. -/
structure Envelope (c : Topology) where
  tag : ℤ
  source : c.Rank
  dest : c.Rank
  deriving DecidableEq

/-- The messages in flight; the call whose data a rank has still to send, and the announcement
whose data it waits for. `called` and `ran` are history: each rank's calls of `Dispatch`,
and what its callbacks were handed. -/
structure DispatchState (c : Topology) where
  net : Fifo.Channels (Envelope c) (Packet c)
  sending : c.Rank → Option (Call c)
  receiving : c.Rank → Option (MsgInfo c)
  called : c.Rank → List (Call c)
  ran : c.Rank → List (Delivery c)

inductive DispatchAction (c : Topology)
  | dispatch (p : c.Rank) (x : Call c)
  | send (p : c.Rank)
  | take (p source : c.Rank)
  | receive (p : c.Rank)

variable {c : Topology}

/-- What is announced of a call. -/
def Call.info (p : c.Rank) (x : Call c) : MsgInfo c := ⟨p, x.tag, x.bytes.length⟩

/-- What the callback is to be handed: the call's own arguments, and its sender. -/
def Call.delivery (p : c.Rank) (x : Call c) : Delivery c := ⟨x.tag, p, x.bytes, x.bytes.length⟩

@[simp] theorem Call.root_delivery (p : c.Rank) (x : Call c) : (x.delivery p).root = p := rfl

/-- `DispatchCallback` runs the callback with its own parameter `count`, the length of the
announcement, and not with `cnt`, the bytes of the data. -/
def MsgInfo.deliver (info : MsgInfo c) (buffer : List UInt8) : Delivery c :=
  ⟨info.tag, info.root, buffer, MsgInfo.size⟩

namespace DispatchState

-- the tags to which a rank has bound a callback, and the tags under which receives
-- other than that of `DISPATCH` are posted at a rank, each with a sender
variable (bound : c.Rank → ℤ → Bool) (posted : c.Rank → ℤ → c.Rank → Bool)

def initial : DispatchState c := ⟨fun _ => [], fun _ => none, fun _ => none, fun _ => [], fun _ => []⟩

variable (s : DispatchState c)

/-- The rank is inside no call that waits. -/
def Free (p : c.Rank) : Prop := s.sending p = none ∧ s.receiving p = none

instance (p : c.Rank) : Decidable (s.Free p) :=
  inferInstanceAs (Decidable (_ ∧ _))

/-- What the callbacks of rank `p` are handed, if it has bound one to the tag. -/
def callback (p : c.Rank) (d : Delivery c) : List (Delivery c) := if bound p d.tag then [d] else []

/-- `Dispatch`, up to the first send. A call to the rank itself runs the callback, and goes on. -/
def dispatch (p : c.Rank) (x : Call c) : Option (DispatchState c) :=
  if s.Free p then
    some { s with
      net := Fifo.push s.net ⟨Message.DISPATCH.code, p, x.dest⟩ (.info (x.info p))
      sending := Function.update s.sending p (some x)
      called := Function.update s.called p (s.called p ++ [x])
      ran := Function.update s.ran p
        (s.ran p ++ if x.dest = p then callback bound p (x.delivery p) else []) }
  else none

/-- The second send of `Dispatch`. -/
def send (p : c.Rank) : Option (DispatchState c) :=
  (s.sending p).map fun x =>
    { s with
      net := Fifo.push s.net ⟨x.tag, p, x.dest⟩ (.data x.bytes)
      sending := Function.update s.sending p none }

/-- The receive of an announcement completes, and `DispatchCallback` starts. Data that
arrive in its place are no announcement. -/
def take (p source : c.Rank) : Option (DispatchState c) :=
  if s.Free p then
    match Fifo.pop s.net ⟨Message.DISPATCH.code, source, p⟩ with
    | some (.info info, net) =>
      some { s with
        net := net
        receiving := Function.update s.receiving p (some info) }
    | _ => none
  else none

/-- `MPI_Recv` returns in `DispatchCallback`, unless a receive that was posted before gets
the message; the callback runs, and the announcements are listened to again. -/
def receive (p : c.Rank) : Option (DispatchState c) :=
  (s.receiving p).bind fun info =>
    if posted p info.tag info.root then none
    else
      match Fifo.pop s.net ⟨info.tag, info.root, p⟩ with
      | some (.data bytes, net) =>
        if bytes.length ≤ info.count then
          some { s with
            net := net
            receiving := Function.update s.receiving p none
            ran := Function.update s.ran p (s.ran p ++ callback bound p (info.deliver bytes)) }
        else none
      | _ => none

def step (s : DispatchState c) : DispatchAction c → Option (DispatchState c)
  | .dispatch p x => s.dispatch bound p x
  | .send p => s.send p
  | .take p source => s.take p source
  | .receive p => s.receive bound posted p

/-- All messages are handled. -/
structure Handled : Prop where
  net : ∀ e, s.net e = []
  free : ∀ p, s.Free p

/-- The calls of rank `p` that are to run a callback at rank `d`. -/
def callsTo (p d : c.Rank) : List (Call c) :=
  (s.called p).filter fun x => decide (x.dest = d) && bound d x.tag

/-- What has run at rank `d` for the sender `p`. -/
def ranFor (p d : c.Rank) : List (Delivery c) := (s.ran d).filter fun x => x.root = p

/-- Every call has run its callback once, with the call's own arguments. -/
def Delivers : Prop := ∀ p d, (s.ranFor p d).Perm ((s.callsTo bound p d).map (Call.delivery p))

/-! ### One sender and one destination -/

/-- What the state has of a sender and a destination. -/
@[ext]
structure View (c : Topology) where
  called : List (Call c)
  receiving : List (MsgInfo c)
  net : ℤ → List (Packet c)
  due : List (Call c)
  ran : List (Delivery c)

def view (p d : c.Rank) : View c where
  called := (s.called p).filter fun x => x.dest = d
  receiving := (s.receiving d).toList.filter fun info => info.root = p
  net := fun tag => s.net ⟨tag, p, d⟩
  due := (s.sending p).toList.filter fun x => x.dest = d
  ran := s.ranFor p d

end DispatchState

/-- The data of a call, under its own tag. -/
def Call.dataUnder (tag : ℤ) (x : Call c) : List (Packet c) :=
  if x.tag = tag then [.data x.bytes] else []

/-- All that a call sends under one tag. -/
def Call.packets (p : c.Rank) (tag : ℤ) (x : Call c) : List (Packet c) :=
  (if tag = Message.DISPATCH.code then [.info (x.info p)] else []) ++ x.dataUnder tag

namespace DispatchState

/-- What the destination's callbacks are handed for a list of messages. -/
def answers (bound : c.Rank → ℤ → Bool) (p d : c.Rank) (xs : List (Call c)) : List (Delivery c) :=
  xs.flatMap fun x => callback bound d ((x.info p).deliver x.bytes)

/-- The calls that the sender has made itself: they ran their callbacks at once. -/
def atOnce (bound : c.Rank → ℤ → Bool) (p d : c.Rank) (xs : List (Call c)) : List (Delivery c) :=
  if p = d then xs.flatMap fun x => callback bound d (x.delivery p) else []

/-- The calls of a sender to a destination, in order: those that are done, the one whose
data are waited for, and those whose announcements wait. The streams carry what is left. -/
structure Tracks (bound : c.Rank → ℤ → Bool) (p d : c.Rank) (v : View c)
    (done current waiting : List (Call c)) : Prop where
  called : v.called = done ++ current ++ waiting
  receiving : v.receiving = current.map (Call.info p)
  net : ∀ tag, v.net tag ++ v.due.flatMap (Call.dataUnder tag) =
    current.flatMap (Call.dataUnder tag) ++ waiting.flatMap (Call.packets p tag)
  ran : v.ran.Perm (atOnce bound p d v.called ++ answers bound p d done)

/-- The invariant of every run. -/
def Accounted (bound : c.Rank → ℤ → Bool) (s : DispatchState c) : Prop :=
  ∀ p d, ∃ done current waiting, Tracks bound p d (s.view p d) done current waiting

variable {bound : c.Rank → ℤ → Bool} {posted : c.Rank → ℤ → c.Rank → Bool}
  {s s' : DispatchState c} {p q d : c.Rank} {x : Call c}

section Tracks

variable {done current waiting : List (Call c)}

/-- A rank that waits for no data has no call half done. -/
theorem Tracks.current_nil (ht : Tracks bound p d (s.view p d) done current waiting)
    (h : s.receiving d = none) : current = [] := by
  have hreceiving := ht.receiving
  simp only [view, h, Option.toList_none, List.filter_nil] at hreceiving
  exact List.map_eq_nil_iff.mp hreceiving.symm

/-- The announcement that is handled names the call whose data come next. -/
theorem Tracks.current_singleton (ht : Tracks bound p d (s.view p d) done current waiting)
    {info : MsgInfo c} (h : s.receiving d = some info) (hroot : info.root = p) :
    ∃ x, current = [x] ∧ Call.info p x = info := by
  have hreceiving := ht.receiving
  simp only [view, h, Option.toList_some, List.filter_singleton, hroot, decide_true,
    cond_true] at hreceiving
  exact List.map_eq_singleton_iff.mp hreceiving.symm

end Tracks

theorem accounted_initial : Accounted bound (initial : DispatchState c) :=
  fun _ _ => ⟨[], [], [], rfl, rfl, fun _ => rfl, by simp [view, initial, ranFor, atOnce, answers]⟩

/-- Messages sent on one stream are seen by its own sender and destination. -/
theorem push_apply (net : Fifo.Channels (Envelope c) (Packet c)) (t tag : ℤ) (p q a d : c.Rank)
    (m : Packet c) : Fifo.push net ⟨t, p, a⟩ m ⟨tag, q, d⟩ =
      net ⟨tag, q, d⟩ ++ if q = p ∧ a = d ∧ tag = t then [m] else [] := by
  by_cases he : (⟨tag, q, d⟩ : Envelope c) = ⟨t, p, a⟩
  · rw [he]
    obtain ⟨rfl, rfl, rfl⟩ := (Envelope.mk.injEq ..).mp he
    simp [Fifo.push]
  · rw [Fifo.push, Function.update_of_ne he, if_neg, List.append_nil]
    rintro ⟨rfl, rfl, rfl⟩
    exact he rfl

/-- What is appended to one rank's history is found by whoever looks there for it. -/
theorem filter_update_append {α : Type*} (f : c.Rank → List α) (a d : c.Rank) (l : List α)
    (k : α → Bool) : (Function.update f a (f a ++ l) d).filter k =
      (f d).filter k ++ if d = a then l.filter k else [] := by
  by_cases hd : d = a
  · subst hd
    simp
  · simp [hd]

theorem filter_callback (bound : c.Rank → ℤ → Bool) (p q : c.Rank) (d : Delivery c) :
    (callback bound p d).filter (fun x => decide (x.root = q)) =
      if d.root = q then callback bound p d else [] := by
  unfold callback
  split_ifs <;> simp_all

theorem push_of_ne (net : Fifo.Channels (Envelope c) (Packet c)) (t tag : ℤ) {p q a d : c.Rank}
    (m : Packet c) (hne : ¬ (q = p ∧ a = d)) :
    Fifo.push net ⟨t, p, a⟩ m ⟨tag, q, d⟩ = net ⟨tag, q, d⟩ := by
  rw [push_apply, if_neg fun h => hne ⟨h.1, h.2.1⟩, List.append_nil]

theorem view_dispatch_of_ne (h : s.dispatch bound p x = some s') (hne : ¬ (q = p ∧ x.dest = d)) :
    s'.view q d = s.view q d := by
  unfold dispatch at h
  obtain ⟨hfree, h⟩ := Option.ite_none_right_eq_some.mp h
  obtain rfl := Option.some.inj h
  have hran : d = p → x.dest = p → p ≠ q := fun hdp hxp hpq => hne ⟨hpq.symm, hxp.trans hdp.symm⟩
  ext1
  · by_cases hq : q = p
    · subst hq
      have hd : x.dest ≠ d := fun hd => hne ⟨rfl, hd⟩
      simp [view, hd]
    · simp [view, hq]
  · rfl
  · funext tag
    exact push_of_ne _ _ tag _ hne
  · by_cases hq : q = p
    · subst hq
      have hd : x.dest ≠ d := fun hd => hne ⟨rfl, hd⟩
      simp [view, hfree.1, hd]
    · simp [view, hq]
  · simp only [view, ranFor, filter_update_append]
    split_ifs with hdp hxp
    · rw [filter_callback, Call.root_delivery, if_neg (hran hdp hxp), List.append_nil]
    · simp
    · simp

theorem view_dispatch_self (h : s.dispatch bound p x = some s') :
    s.Free p ∧ s'.view p x.dest =
      { s.view p x.dest with
        called := (s.view p x.dest).called ++ [x]
        net := fun tag => s.net ⟨tag, p, x.dest⟩ ++
          if tag = Message.DISPATCH.code then [.info (x.info p)] else []
        due := [x]
        ran := (s.view p x.dest).ran ++
          if p = x.dest then callback bound x.dest (x.delivery p) else [] } := by
  unfold dispatch at h
  obtain ⟨hfree, h⟩ := Option.ite_none_right_eq_some.mp h
  obtain rfl := Option.some.inj h
  refine ⟨hfree, ?_⟩
  ext1
  · simp [view]
  · rfl
  · simp [view, push_apply]
  · simp [view]
  · simp only [view, ranFor, filter_update_append]
    by_cases hp : x.dest = p
    · rw [if_pos hp, if_pos hp, if_pos hp.symm, filter_callback, Call.root_delivery, if_pos rfl, hp]
    · rw [if_neg hp, if_neg (Ne.symm hp)]

theorem view_send (h : s.send p = some s') : ∃ x, s.sending p = some x ∧
    (∀ q d, ¬ (q = p ∧ x.dest = d) → s'.view q d = s.view q d) ∧
    s'.view p x.dest =
      { s.view p x.dest with
        net := fun tag => s.net ⟨tag, p, x.dest⟩ ++ x.dataUnder tag
        due := [] } := by
  obtain ⟨x, hx, rfl⟩ := Option.map_eq_some_iff.mp h
  refine ⟨x, hx, fun q d hne => ?_, ?_⟩
  · ext1
    · rfl
    · rfl
    · funext tag
      exact push_of_ne _ _ tag _ hne
    · by_cases hq : q = p
      · subst hq
        have hd : x.dest ≠ d := fun hd => hne ⟨rfl, hd⟩
        simp [view, hx, hd]
      · simp [view, hq]
    · rfl
  · ext1
    · rfl
    · rfl
    · simp [view, push_apply, Call.dataUnder, eq_comm]
    · simp [view]
    · rfl

/-- Rank `p` has taken the oldest message of a stream, `rest` is left of it; it waits for
`waits` then, and has run `ran`. -/
def turn (s : DispatchState c) (p source : c.Rank) (tag : ℤ) (rest : List (Packet c))
    (waits : Option (MsgInfo c)) (ran : List (Delivery c)) : DispatchState c :=
  { s with
    net := Function.update s.net ⟨tag, source, p⟩ rest
    receiving := Function.update s.receiving p waits
    ran := Function.update s.ran p (s.ran p ++ ran) }

theorem take_cases {source : c.Rank} (h : s.take p source = some s') :
    s.Free p ∧ ∃ info rest, s.net ⟨Message.DISPATCH.code, source, p⟩ = .info info :: rest ∧
      s' = s.turn p source Message.DISPATCH.code rest (some info) [] := by
  unfold take at h
  obtain ⟨hfree, h⟩ := Option.ite_none_right_eq_some.mp h
  refine ⟨hfree, ?_⟩
  split at h
  · next info net hpop =>
    obtain ⟨rest, hnet, rfl⟩ := Fifo.pop_eq_some.mp hpop
    refine ⟨info, rest, hnet, ?_⟩
    rw [turn, List.append_nil, Function.update_eq_self]
    exact (Option.some.inj h).symm
  · exact absurd h (Option.some_ne_none _).symm

theorem receive_cases (h : s.receive bound posted p = some s') :
    ∃ info bytes rest, s.receiving p = some info ∧ ¬ posted p info.tag info.root ∧
      s.net ⟨info.tag, info.root, p⟩ = .data bytes :: rest ∧ bytes.length ≤ info.count ∧
      s' = s.turn p info.root info.tag rest none (callback bound p (info.deliver bytes)) := by
  unfold receive at h
  obtain ⟨info, hinfo, h⟩ := Option.bind_eq_some_iff.mp h
  obtain ⟨hposted, h⟩ := Option.ite_none_left_eq_some.mp h
  split at h
  · next bytes net hpop =>
    obtain ⟨rest, hnet, rfl⟩ := Fifo.pop_eq_some.mp hpop
    obtain ⟨hle, h⟩ := Option.ite_none_right_eq_some.mp h
    exact ⟨info, bytes, rest, hinfo, hposted, hnet, hle, (Option.some.inj h).symm⟩
  · exact absurd h (Option.some_ne_none _).symm

section Turn

variable {source : c.Rank} {tag : ℤ} {rest : List (Packet c)} {waits : Option (MsgInfo c)}
  {ran : List (Delivery c)}

/-- A turn that is about one sender is not seen by the others. -/
theorem view_turn_of_ne (hne : ¬ (q = source ∧ d = p))
    (hold : ∀ info ∈ s.receiving p, info.root = source) (hnew : ∀ info ∈ waits, info.root = source)
    (hran : ∀ x ∈ ran, x.root = source) :
    (s.turn p source tag rest waits ran).view q d = s.view q d := by
  have hnone : ∀ o : Option (MsgInfo c), (∀ info ∈ o, info.root = source) → q ≠ source →
      (o.toList.filter fun info => info.root = q) = [] := by
    intro o ho hq
    refine List.filter_eq_nil_iff.mpr fun info hinfo hroot => hq ?_
    rw [← ho info (Option.mem_toList.mp hinfo), of_decide_eq_true hroot]
  ext1
  · rfl
  · by_cases hd : d = p
    · subst hd
      have hq : q ≠ source := fun hq => hne ⟨hq, rfl⟩
      simp only [view, turn, Function.update_self]
      rw [hnone waits hnew hq, hnone _ hold hq]
    · simp [view, turn, hd]
  · funext t
    refine Function.update_of_ne (fun he => hne ?_) _ _
    obtain ⟨-, rfl, rfl⟩ := (Envelope.mk.injEq ..).mp he
    exact ⟨rfl, rfl⟩
  · rfl
  · simp only [view, ranFor, turn, filter_update_append]
    split_ifs with hd
    · rw [List.append_right_eq_self, List.filter_eq_nil_iff]
      intro x hx hroot
      exact hne ⟨(of_decide_eq_true hroot).symm.trans (hran x hx), hd⟩
    · rw [List.append_nil]

theorem view_turn_self (hnew : ∀ info ∈ waits, info.root = source)
    (hran : ∀ x ∈ ran, x.root = source) :
    (s.turn p source tag rest waits ran).view source p =
      { s.view source p with
        receiving := waits.toList
        net := fun t => if t = tag then rest else s.net ⟨t, source, p⟩
        ran := (s.view source p).ran ++ ran } := by
  ext1
  · rfl
  · simp only [view, turn, Function.update_self, List.filter_eq_self, Option.mem_toList]
    exact fun info hinfo => decide_eq_true (hnew info hinfo)
  · funext t
    by_cases ht : t = tag
    · subst ht
      simp [view, turn]
    · simp [view, turn, ht]
  · rfl
  · simp only [view, ranFor, turn, filter_update_append, if_true, List.append_cancel_left_eq,
      List.filter_eq_self]
    exact fun x hx => decide_eq_true (hran x hx)

end Turn

/-! ### What one step preserves -/

theorem atOnce_append_singleton (p d : c.Rank) (xs : List (Call c)) (x : Call c) :
    atOnce bound p d (xs ++ [x]) =
      atOnce bound p d xs ++ if p = d then callback bound d (x.delivery p) else [] := by
  unfold atOnce
  split_ifs <;> simp

theorem Accounted.dispatch (hA : s.Accounted bound) (h : s.dispatch bound p x = some s') :
    s'.Accounted bound := by
  intro q d
  obtain ⟨done, current, waiting, ht⟩ := hA q d
  by_cases hqd : q = p ∧ x.dest = d
  · obtain ⟨rfl, rfl⟩ := hqd
    obtain ⟨hfree, hview⟩ := view_dispatch_self h
    have hdue : (s.view q x.dest).due = [] := by simp [view, hfree.1]
    have hnet := ht.net
    rw [hdue] at hnet
    simp only [List.flatMap_nil, List.append_nil] at hnet
    refine ⟨done, current, waiting ++ [x], ?_⟩
    rw [hview]
    refine ⟨?_, ht.receiving, fun tag => ?_, ?_⟩
    · simp only [ht.called, List.append_assoc]
    · have htag : s.net ⟨tag, q, x.dest⟩ = _ := hnet tag
      simp only [htag, List.flatMap_append, List.flatMap_singleton, List.append_assoc, Call.packets]
    · rw [atOnce_append_singleton, List.append_assoc]
      refine (ht.ran.append_right _).trans ?_
      rw [List.append_assoc]
      exact List.perm_append_comm.append_left _
  · rw [view_dispatch_of_ne h hqd]
    exact ⟨done, current, waiting, ht⟩

theorem Accounted.send (hA : s.Accounted bound) (h : s.send p = some s') :
    s'.Accounted bound := by
  obtain ⟨x, hx, hother, hself⟩ := view_send h
  intro q d
  obtain ⟨done, current, waiting, ht⟩ := hA q d
  by_cases hqd : q = p ∧ x.dest = d
  · obtain ⟨rfl, rfl⟩ := hqd
    have hdue : (s.view q x.dest).due = [x] := by simp [view, hx]
    refine ⟨done, current, waiting, ?_⟩
    rw [hself]
    refine ⟨ht.called, ht.receiving, fun tag => ?_, ht.ran⟩
    have hnet := ht.net tag
    rw [hdue, List.flatMap_singleton] at hnet
    rw [List.flatMap_nil, List.append_nil]
    exact hnet
  · rw [hother q d hqd]
    exact ⟨done, current, waiting, ht⟩

theorem Accounted.take {source : c.Rank} (hA : s.Accounted bound) (h : s.take p source = some s') :
    s'.Accounted bound := by
  obtain ⟨hfree, info, rest, hnet, rfl⟩ := take_cases h
  -- nothing is being received, so the announcement is that of the first call that waits
  obtain ⟨done, current, waiting, ht⟩ := hA source p
  obtain rfl := ht.current_nil hfree.2
  have hstream := ht.net Message.DISPATCH.code
  simp only [view, hnet, List.flatMap_nil, List.nil_append, List.cons_append] at hstream
  obtain ⟨x, waiting, rfl⟩ : ∃ x xs, waiting = x :: xs := by
    cases waiting with
    | nil => exact absurd hstream (List.cons_ne_nil _ _)
    | cons x xs => exact ⟨x, xs, rfl⟩
  simp only [List.flatMap_cons, Call.packets, if_true, List.cons_append, List.nil_append,
    List.cons.injEq, Packet.info.injEq] at hstream
  obtain ⟨rfl, hrest⟩ := hstream
  have hnew : ∀ info ∈ some (x.info source), info.root = source := by
    rintro _ ⟨⟩
    rfl
  intro q d
  by_cases hqd : q = source ∧ d = p
  · obtain ⟨rfl, rfl⟩ := hqd
    refine ⟨done, [x], waiting, ?_⟩
    rw [view_turn_self hnew (by simp)]
    refine ⟨by simpa using ht.called, rfl, fun tag => ?_, by simpa using ht.ran⟩
    simp only [List.flatMap_singleton]
    split_ifs with hcode
    · subst hcode
      exact hrest
    · have htag := ht.net tag
      simp only [Call.packets, hcode, if_false, List.flatMap_nil, List.nil_append,
        List.flatMap_cons] at htag
      exact htag
  · rw [view_turn_of_ne hqd (by simp [hfree.2]) hnew (by simp)]
    exact hA q d

theorem Accounted.receive (hA : s.Accounted bound) (h : s.receive bound posted p = some s') :
    s'.Accounted bound := by
  obtain ⟨info, bytes, rest, hinfo, -, hnet, -, rfl⟩ := receive_cases h
  obtain ⟨source, hroot⟩ : ∃ source, info.root = source := ⟨_, rfl⟩
  rw [hroot] at hnet ⊢
  obtain ⟨done, current, waiting, ht⟩ := hA source p
  obtain ⟨x, rfl, rfl⟩ := ht.current_singleton hinfo hroot
  have hstream := ht.net x.tag
  simp only [view, List.flatMap_singleton, Call.dataUnder, if_true, List.cons_append,
    List.nil_append] at hstream
  rw [show s.net ⟨x.tag, source, p⟩ = .data bytes :: rest from hnet, List.cons_append,
    List.cons.injEq, Packet.data.injEq] at hstream
  obtain ⟨rfl, hrest⟩ := hstream
  have hran : ∀ y ∈ callback bound p ((x.info source).deliver x.bytes), y.root = source := by
    intro y hy
    unfold callback at hy
    split_ifs at hy
    · rw [List.mem_singleton.mp hy]
      rfl
    · exact absurd hy List.not_mem_nil
  intro q d
  by_cases hqd : q = source ∧ d = p
  · obtain ⟨rfl, rfl⟩ := hqd
    refine ⟨done ++ [x], [], waiting, ?_⟩
    rw [view_turn_self (by simp) hran]
    refine ⟨by simpa using ht.called, rfl, fun tag => ?_, ?_⟩
    · simp only [List.flatMap_nil, List.nil_append]
      split_ifs with htag
      · subst htag
        exact hrest
      · have hnet := ht.net tag
        have hne : x.tag ≠ tag := fun he => htag he.symm
        rw [List.flatMap_singleton, Call.dataUnder, if_neg hne, List.nil_append] at hnet
        exact hnet
    · have hanswers : answers bound q d (done ++ [x]) =
          answers bound q d done ++ callback bound d ((x.info q).deliver x.bytes) := by
        simp [answers]
      rw [hanswers, ← List.append_assoc]
      exact ht.ran.append_right _
  · rw [view_turn_of_ne hqd (by simp [hinfo, hroot]) (by simp) hran]
    exact hA q d

theorem Accounted.step (hA : s.Accounted bound) {a : DispatchAction c}
    (h : s.step bound posted a = some s') : s'.Accounted bound := by
  cases a with
  | dispatch p x => exact hA.dispatch h
  | send p => exact hA.send h
  | take p source => exact hA.take h
  | receive p => exact hA.receive h

theorem accounted_of_run {as : List (DispatchAction c)}
    (hr : StepSystem.run (step bound posted) initial as = some s) : s.Accounted bound :=
  StepSystem.run_invariant (fun _ _ _ hA h => hA.step h) accounted_initial hr

/-! ### What the callbacks are handed in the end -/

theorem flatMap_callback {f : Call c → Delivery c} (hf : ∀ x, (f x).tag = x.tag) (d : c.Rank)
    (xs : List (Call c)) :
    (xs.flatMap fun x => callback bound d (f x)) = (xs.filter fun x => bound d x.tag).map f := by
  induction xs with
  | nil => rfl
  | cons x xs ih =>
    rw [List.flatMap_cons, ih, callback, hf x]
    by_cases hx : bound d x.tag <;> simp [hx]

/-- Once all messages are handled, a destination has run the callback once for every message,
and the sender once more for each that it has sent to itself. -/
theorem Accounted.handled (hA : s.Accounted bound) (h : s.Handled) (p d : c.Rank) :
    (s.ranFor p d).Perm ((if p = d then (s.callsTo bound p d).map (Call.delivery p) else []) ++
      (s.callsTo bound p d).map fun x => (x.info p).deliver x.bytes) := by
  obtain ⟨done, current, waiting, ht⟩ := hA p d
  obtain rfl := ht.current_nil (h.free d).2
  have hnet := ht.net Message.DISPATCH.code
  simp only [view, h.net, (h.free p).1, Option.toList_none, List.filter_nil, List.flatMap_nil,
    List.append_nil, List.nil_append] at hnet
  have hwaiting : waiting = [] := by
    refine List.eq_nil_iff_forall_not_mem.mpr fun x hx => ?_
    have hpackets := List.flatMap_eq_nil_iff.mp hnet.symm x hx
    simp [Call.packets] at hpackets
  subst hwaiting
  have hcalled := ht.called
  rw [List.append_nil, List.append_nil] at hcalled
  have hdone : (done.filter fun x => bound d x.tag) = s.callsTo bound p d := by
    rw [← hcalled, callsTo]
    simp only [view, List.filter_filter, Bool.and_comm]
  have hran := ht.ran
  rw [hcalled, atOnce, answers, flatMap_callback (fun _ => rfl), flatMap_callback (fun _ => rfl),
    hdone] at hran
  exact hran

/-- The calls that fit: to another rank, with as many bytes as an announcement has. -/
def AllFit (bound : c.Rank → ℤ → Bool) (s : DispatchState c) : Prop :=
  ∀ p, ∀ x ∈ s.called p, bound x.dest x.tag → x.dest ≠ p ∧ x.bytes.length = MsgInfo.size

theorem mem_callsTo : x ∈ s.callsTo bound p d ↔ x ∈ s.called p ∧ x.dest = d ∧ bound d x.tag := by
  simp [callsTo]

theorem Accounted.delivers_iff (hA : s.Accounted bound) (h : s.Handled) :
    s.Delivers bound ↔ s.AllFit bound := by
  constructor
  · intro hdelivers p x hx hbound
    have hmem : x ∈ s.callsTo bound p x.dest := mem_callsTo.mpr ⟨hx, rfl, hbound⟩
    have hran := (hdelivers p x.dest).symm.trans (hA.handled h p x.dest)
    have hne : x.dest ≠ p := by
      rintro rfl
      have hlength := hran.length_eq
      have hpos := List.length_pos_of_mem hmem
      simp only [if_true, List.length_append, List.length_map] at hlength
      omega
    refine ⟨hne, ?_⟩
    rw [if_neg (Ne.symm hne), List.nil_append] at hran
    obtain ⟨y, -, hy⟩ := List.mem_map.mp (hran.subset (List.mem_map_of_mem hmem))
    exact (congrArg Delivery.count hy).symm
  · intro hfit p d
    refine (hA.handled h p d).trans (List.Perm.of_eq ?_)
    have hmap : ((s.callsTo bound p d).map fun x => (x.info p).deliver x.bytes) =
        (s.callsTo bound p d).map (Call.delivery p) := by
      refine List.map_congr_left fun x hx => ?_
      obtain ⟨hcalled, rfl, hbound⟩ := mem_callsTo.mp hx
      rw [Call.delivery, (hfit p x hcalled hbound).2]
      rfl
    rw [hmap]
    split_ifs with hp
    · subst hp
      have hnil : s.callsTo bound p p = [] := by
        refine List.eq_nil_iff_forall_not_mem.mpr fun x hx => ?_
        obtain ⟨hcalled, hdest, hbound⟩ := mem_callsTo.mp hx
        exact (hfit p x hcalled (hdest ▸ hbound)).1 hdest
      rw [hnil]
      rfl
    · rfl

/-- Without another call something is still to be done until all messages are handled, but for
a rank that waits for data which another of its receives has taken. -/
theorem Accounted.moves (hA : s.Accounted bound) (posted : c.Rank → ℤ → c.Rank → Bool) :
    s.Handled ∨ (∃ p, (s.send p).isSome) ∨ (∃ p source, (s.take p source).isSome) ∨
      (∃ p, (s.receive bound posted p).isSome) ∨
        ∃ p info, s.receiving p = some info ∧ posted p info.tag info.root := by
  by_cases hsend : ∃ p, s.sending p ≠ none
  · obtain ⟨p, hp⟩ := hsend
    refine .inr (.inl ⟨p, ?_⟩)
    rw [DispatchState.send, Option.isSome_map]
    exact Option.isSome_iff_ne_none.mpr hp
  have hsending : ∀ p, s.sending p = none := fun p => not_not.mp fun hp => hsend ⟨p, hp⟩
  have hdue : ∀ p d, (s.view p d).due = [] := fun p d => by simp [view, hsending p]
  by_cases hreceive : ∃ p, s.receiving p ≠ none
  · obtain ⟨p, hp⟩ := hreceive
    obtain ⟨info, hinfo⟩ := Option.ne_none_iff_exists'.mp hp
    by_cases hposted : posted p info.tag info.root
    · exact .inr (.inr (.inr (.inr ⟨p, info, hinfo, hposted⟩)))
    refine .inr (.inr (.inr (.inl ⟨p, ?_⟩)))
    obtain ⟨source, hroot⟩ : ∃ source, info.root = source := ⟨_, rfl⟩
    obtain ⟨done, current, waiting, ht⟩ := hA source p
    obtain ⟨x, rfl, rfl⟩ := ht.current_singleton hinfo hroot
    have hstream := ht.net x.tag
    rw [hdue, List.flatMap_nil, List.append_nil, List.flatMap_singleton, Call.dataUnder,
      if_pos rfl, List.singleton_append] at hstream
    have hpop := Fifo.pop_eq_some.mpr ⟨_, show s.net ⟨x.tag, source, p⟩ = _ from hstream, rfl⟩
    have hle : (x.bytes.length : ℤ) ≤ (x.info source).count := le_refl _
    simp only [DispatchState.receive, hinfo, Option.bind_some, hposted]
    rw [if_neg (by simp), show Fifo.pop s.net ⟨(x.info source).tag, (x.info source).root, p⟩ = _
      from hpop]
    simp only [hle, if_true, Option.isSome_some]
  have hreceiving : ∀ p, s.receiving p = none := fun p => not_not.mp fun hp => hreceive ⟨p, hp⟩
  by_cases hnet : ∀ e, s.net e = []
  · exact .inl ⟨hnet, fun p => ⟨hsending p, hreceiving p⟩⟩
  obtain ⟨⟨tag, source, p⟩, he⟩ := not_forall.mp hnet
  refine .inr (.inr (.inl ⟨p, source, ?_⟩))
  obtain ⟨done, current, waiting, ht⟩ := hA source p
  obtain rfl := ht.current_nil (hreceiving p)
  have hstream := ht.net
  simp only [hdue, List.flatMap_nil, List.append_nil, List.nil_append] at hstream
  cases waiting with
  | nil => exact absurd (hstream tag) he
  | cons x waiting =>
    have hcode := hstream Message.DISPATCH.code
    simp only [List.flatMap_cons, Call.packets, if_true, List.cons_append, List.nil_append] at hcode
    have hpop := Fifo.pop_eq_some.mpr
      ⟨_, show s.net ⟨Message.DISPATCH.code, source, p⟩ = _ from hcode, rfl⟩
    rw [DispatchState.take, if_pos ⟨hsending p, hreceiving p⟩, show Fifo.pop s.net _ = _ from hpop]
    rfl

end DispatchState

/-! ## The callbacks of broadcasts -/

/-- What the callback of a broadcast is to be handed: the broadcast's own arguments. -/
def Broadcast.handed (b : Broadcast c) : Delivery c := ⟨b.tag, b.root, b.bytes, b.bytes.length⟩

namespace BcastState

variable {t : BcastState c}

/-- Every rank has run the callback of every broadcast once, with the broadcast's own arguments. -/
def Delivers (t : BcastState c) : Prop :=
  ∀ p r, ((t.handled p).filter fun d => d.root = r) = (t.accepted r).map Broadcast.handed

theorem delivers_iff {bs : List (BcastAction c)}
    (hr : StepSystem.run step initial bs = some t) (hstalled : t.Stalled) :
    t.Delivers ↔ t.AllFit := by
  obtain ⟨items, waiting, h⟩ := refines_of_run hr
  obtain ⟨haccepted, hhandled⟩ := h.complete hstalled
  have hfilter : ∀ p r, ((t.handled p).filter fun d => d.root = r) =
      (t.accepted r).map Broadcast.delivery := by
    intro p r
    rw [hhandled, List.filter_map, ← haccepted]
    rfl
  constructor
  · intro hdelivers r b hb
    have hmem : b.handed ∈ (t.accepted r).map Broadcast.delivery := by
      rw [← hfilter c.leader r, hdelivers c.leader r]
      exact List.mem_map_of_mem hb
    obtain ⟨b', -, hb'⟩ := List.mem_map.mp hmem
    exact (congrArg Delivery.count hb').symm
  · intro hfit p r
    rw [hfilter]
    refine List.map_congr_left fun b hb => ?_
    rw [Broadcast.handed, hfit r b hb]
    rfl

end BcastState

/-- In every run the callbacks of `Dispatch` are run once each with the arguments of the call,
when all messages are handled, if and only if no call was to the rank itself and each had as many
bytes as an announcement has; those of `Broadcast`, when all ranks have handled all, if and only
if each had as many bytes. Whatever else happens, messages go on being handled. -/
theorem delivers_iff_fits (bound : c.Rank → ℤ → Bool) (posted : c.Rank → ℤ → c.Rank → Bool)
    {as : List (DispatchAction c)} {s : DispatchState c}
    (hs : StepSystem.run (DispatchState.step bound posted) DispatchState.initial as = some s)
    {bs : List (BcastAction c)} {t : BcastState c}
    (ht : StepSystem.run BcastState.step BcastState.initial bs = some t) :
    (s.Handled → (s.Delivers bound ↔ s.AllFit bound)) ∧ (t.Stalled → (t.Delivers ↔ t.AllFit)) ∧
      (s.Handled ∨ (∃ p, (s.send p).isSome) ∨ (∃ p source, (s.take p source).isSome) ∨
        (∃ p, (s.receive bound posted p).isSome) ∨
        ∃ p info, s.receiving p = some info ∧ posted p info.tag info.root) :=
  have hA := DispatchState.accounted_of_run hs
  ⟨hA.delivers_iff, BcastState.delivers_iff ht, hA.moves posted⟩

namespace DispatchState

/-- Rank 1 of two dispatches `buf` under the tag 42 to rank 0, which handles it. -/
def pairDispatch (buf : List UInt8) : Option (DispatchState SyncState.pair) :=
  StepSystem.run (step (fun _ tag => tag = 42) fun _ _ _ => false) initial
    [.dispatch SyncState.other ⟨42, SyncState.pair.leader, buf⟩, .send SyncState.other,
      .take SyncState.pair.leader SyncState.other, .receive SyncState.pair.leader]

/-- The alphabet and a zero byte. -/
def alphabet : List UInt8 := (List.range 26).map (fun i => UInt8.ofNat (65 + i)) ++ [0]

theorem twelve_isSome : (pairDispatch (List.replicate 12 7)).isSome := by decide +kernel

theorem alphabet_isSome : (pairDispatch alphabet).isSome := by decide +kernel

end DispatchState

theorem bcastTwelve_isSome : (StepSystem.run BcastState.step BcastState.initial
    (BcastState.pairBroadcast (List.replicate 12 7))).isSome := by decide +kernel

theorem delivers_twelve :
    ((DispatchState.pairDispatch (List.replicate 12 7)).get DispatchState.twelve_isSome).Handled ∧
      ((DispatchState.pairDispatch (List.replicate 12 7)).get
        DispatchState.twelve_isSome).Delivers fun _ tag => tag = 42 := by
  obtain ⟨hdelivers, -, hmoves⟩ := delivers_iff_fits _ _
    (Option.some_get DispatchState.twelve_isSome).symm (Option.some_get bcastTwelve_isSome).symm
  rcases hmoves with hhandled | h | h | h | ⟨p, info, -, h⟩
  · refine ⟨hhandled, (hdelivers hhandled).mpr fun p => ?_⟩
    revert p
    decide +kernel
  · exact absurd h (by decide +kernel)
  · exact absurd h (by decide +kernel)
  · exact absurd h (by decide +kernel)
  · exact absurd h Bool.false_ne_true

/-- The callback is told of 12 bytes of the 27 that were dispatched. -/
theorem alphabet_dispatched : ¬ ∀ (c : Topology) (bound : c.Rank → ℤ → Bool)
    (posted : c.Rank → ℤ → c.Rank → Bool) (as : List (DispatchAction c)) (s : DispatchState c),
    StepSystem.run (DispatchState.step bound posted) DispatchState.initial as = some s →
      s.Handled → s.Delivers bound := by
  intro hall
  have hrun := (Option.some_get DispatchState.alphabet_isSome).symm
  rcases (DispatchState.accounted_of_run hrun).moves fun _ _ _ => false with
    hhandled | h | h | h | ⟨p, info, -, h⟩
  · have hfit := ((DispatchState.accounted_of_run hrun).delivers_iff hhandled).mp
      (hall _ _ _ _ _ hrun hhandled) SyncState.other
    revert hfit
    decide +kernel
  · exact absurd h (by decide +kernel)
  · exact absurd h (by decide +kernel)
  · exact absurd h (by decide +kernel)
  · exact absurd h Bool.false_ne_true

end Damaris.Comm
