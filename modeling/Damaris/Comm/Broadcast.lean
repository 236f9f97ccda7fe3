import Damaris.Comm.MPI2Reactor

/-!
# The broadcast half of `MPI2Reactor`

A broadcast is announced to rank 0, and rank 0 passes the announcements down the
tree one by one. A rank that receives one forwards it and enters `MPI_Bcast`,
the only call here that blocks: its handler is cut there into two steps.
-/
namespace Damaris.Comm

/-- `sizeof(MsgInfo)`: three integers of four bytes. -/
def MsgInfo.size : ℕ := 12

/-- A call of `MPI_Bcast`: what the rank was told of the broadcast, and its buffer. -/
structure BcastCall (c : Topology) where
  info : MsgInfo c
  buffer : List UInt8
  deriving DecidableEq

/-- What a callback is run with: tag, source, the bytes its pointer leads to, and their number. -/
structure Delivery (c : Topology) where
  tag : ℤ
  root : c.Rank
  buffer : List UInt8
  count : ℕ
  deriving DecidableEq

/-- A call of `Broadcast` that returned true. -/
structure Broadcast (c : Topology) where
  root : c.Rank
  tag : ℤ
  bytes : List UInt8
  deriving DecidableEq

variable {c : Topology}

/-- What is announced of a broadcast. -/
def Broadcast.info (b : Broadcast c) : MsgInfo c := ⟨b.root, b.tag, b.bytes.length⟩

/-- The broadcast whose bytes are in the buffer of a callback. -/
def Delivery.broadcast (d : Delivery c) : Broadcast c := ⟨d.root, d.tag, d.buffer⟩

/-- The broadcast that a callback receives: the first `count` bytes of its buffer,
if there are as many. -/
def Delivery.received (d : Delivery c) : Option (Broadcast c) :=
  if d.count ≤ d.buffer.length then some ⟨d.root, d.tag, d.buffer.take d.count⟩ else none

namespace MPI2Reactor

/-- Where rank `p` announces its broadcasts. -/
def announceLink (p : c.Rank) : Link c := ⟨.BCAST, p, c.leader⟩

/-- Where the other ranks hear of broadcasts. -/
def bcastLink (q : c.Rank) : Link c := ⟨.BCAST, c.parent q, q⟩

/-- What a call of `Broadcast` leaves behind. -/
structure BroadcastOutcome (c : Topology) where
  buffers : ℤ → Option (List UInt8)
  sends : List (Link c × MsgInfo c)
  returned : Bool

/-- `MPI2Reactor::Broadcast`; `sent` says whether the send to rank 0 succeeds. -/
def broadcast (rank : c.Rank) (tag : ℤ) (buf : List UInt8) (sent : Bool)
    (bcastBuffers : ℤ → Option (List UInt8)) : BroadcastOutcome c :=
  if (bcastBuffers tag).isSome then ⟨bcastBuffers, [], false⟩
  else
    let info : MsgInfo c := ⟨rank, tag, buf.length⟩
    let buffers := Function.update bcastBuffers tag (some buf)
    if sent then ⟨buffers, [(announceLink rank, info)], true⟩
    else ⟨Function.update buffers tag none, [], false⟩

/-- The buffer with which `BcastCallback` enters `MPI_Bcast`: the saved one at the
root, where `operator[]` makes an empty one for a missing tag, and room for the
data elsewhere. -/
def bcastBuffer (rank : c.Rank) (info : MsgInfo c) (bcastBuffers : ℤ → Option (List UInt8)) :
    List UInt8 :=
  if rank ≠ info.root then List.replicate info.count.toNat 0
  else (bcastBuffers info.tag).getD []

/-- The root forgets the buffer it has taken. -/
def eraseBuffer (rank : c.Rank) (info : MsgInfo c) (bcastBuffers : ℤ → Option (List UInt8)) :
    ℤ → Option (List UInt8) :=
  if rank ≠ info.root then bcastBuffers else Function.update bcastBuffers info.tag none

/-- The receives of announcements that `Init` posts: rank 0 listens to everybody,
the others to their parents. -/
def ListensBcast (rank source : c.Rank) : Prop := rank = c.leader ∨ source = c.parent rank

instance (rank source : c.Rank) : Decidable (ListensBcast rank source) :=
  inferInstanceAs (Decidable (_ ∨ _))

/-- The end of `BcastCallback`. The callback is handed `count`, which is the length of the
announcement, and not the `cnt` bytes of the data. -/
def deliver (info : MsgInfo c) (data : List UInt8) : Delivery c :=
  ⟨info.tag, info.root, data, MsgInfo.size⟩

end MPI2Reactor

/-! ## All the ranks of a communicator -/

/-- The saved buffers of all ranks, the announcements in flight, and who is
inside `MPI_Bcast` with what. The library matches the calls of the ranks by their
order, so it remembers them. `accepted` and `handled` are history: the calls of
`Broadcast` that returned true, and what each rank's callbacks were handed. -/
structure BcastState (c : Topology) where
  bcastBuffers : c.Rank → ℤ → Option (List UInt8)
  net : Fifo.Channels (Link c) (MsgInfo c)
  inside : c.Rank → Option (BcastCall c)
  calls : c.Rank → List (BcastCall c)
  accepted : c.Rank → List (Broadcast c)
  handled : c.Rank → List (Delivery c)

inductive BcastAction (c : Topology)
  | broadcast (p : c.Rank) (tag : ℤ) (buf : List UInt8) (sent : Bool)
  | enter (p source : c.Rank)
  | leave (p : c.Rank)

namespace BcastState

open MPI2Reactor

def initial : BcastState c :=
  ⟨fun _ _ => none, fun _ => [], fun _ => none, fun _ => [], fun _ => [], fun _ => []⟩

variable (s : BcastState c)

/-- The user of rank `p` calls `Broadcast`, which it cannot while a handler blocks. -/
def broadcast (p : c.Rank) (tag : ℤ) (buf : List UInt8) (sent : Bool) : Option (BcastState c) :=
  if s.inside p = none then
    let o := MPI2Reactor.broadcast p tag buf sent (s.bcastBuffers p)
    some { s with
      bcastBuffers := Function.update s.bcastBuffers p o.buffers
      net := Fifo.pushAll s.net o.sends
      accepted := Function.update s.accepted p
        (s.accepted p ++ if o.returned then [⟨p, tag, buf⟩] else []) }
  else none

/-- Rank `p` takes an announcement, forwards it and enters `MPI_Bcast`. -/
def enter (p source : c.Rank) : Option (BcastState c) :=
  if s.inside p = none ∧ ListensBcast p source then
    (Fifo.pop s.net ⟨.BCAST, source, p⟩).map fun (info, net) =>
      let call : BcastCall c := ⟨info, bcastBuffer p info (s.bcastBuffers p)⟩
      { s with
        bcastBuffers := Function.update s.bcastBuffers p (eraseBuffer p info (s.bcastBuffers p))
        net := Fifo.pushAll net ((c.children p).map fun q => (⟨.BCAST, p, q⟩, info))
        inside := Function.update s.inside p (some call)
        calls := Function.update s.calls p (s.calls p ++ [call]) }
  else none

/-- What `MPI_Bcast` puts into the buffer of rank `p`: the bytes with which the root entered
the matching call, which must name the same root and count. -/
def bcastData (p : c.Rank) (call : BcastCall c) : Option (List UInt8) :=
  if p = call.info.root then some call.buffer
  else
    match (s.calls call.info.root)[(s.calls p).length - 1]? with
    | none => none
    | some source =>
      if source.info.root = call.info.root ∧ source.info.count = call.info.count then
        some (source.buffer.take call.info.count.toNat)
      else none

/-- `MPI_Bcast` returns at rank `p`, and the handler runs the callback. -/
def leave (p : c.Rank) : Option (BcastState c) :=
  (s.inside p).bind fun call => (s.bcastData p call).map fun data =>
    { s with
      inside := Function.update s.inside p none
      handled := Function.update s.handled p (s.handled p ++ [deliver call.info data]) }

def step (s : BcastState c) : BcastAction c → Option (BcastState c)
  | .broadcast p tag buf sent => s.broadcast p tag buf sent
  | .enter p source => s.enter p source
  | .leave p => s.leave p

/-- Nothing more happens without another `Broadcast`: no rank that is free has an
announcement to take, and the ranks inside `MPI_Bcast` wait for one that has not entered. -/
structure Stalled : Prop where
  free : ∀ p source, s.inside p = none → ListensBcast p source → s.net ⟨.BCAST, source, p⟩ = []
  blocked : ∀ p, s.inside p ≠ none → ∃ q, (s.calls q).length < (s.calls p).length

/-- There is one order of the broadcasts, that in which rank 0 takes their announcements: all
ranks enter `MPI_Bcast` in it, with the root and count of each, and handle it with its
bytes in the buffer. It keeps the order of each sender. Once nothing more happens, it
holds every broadcast once, and every rank has handled them all. -/
structure Follows (order : List (Broadcast c)) : Prop where
  leader : (s.calls c.leader).map BcastCall.info = order.map Broadcast.info
  entered : ∀ p, (s.calls p).map BcastCall.info <+: order.map Broadcast.info
  handled : ∀ p, (s.handled p).map Delivery.broadcast <+: order
  sent : ∀ r, (order.filter fun b => b.root = r) <+: s.accepted r
  complete : s.Stalled → (∀ r, (order.filter fun b => b.root = r) = s.accepted r) ∧
    ∀ p, (s.handled p).map Delivery.broadcast = order

/-- What a user of `Broadcast` relies on: the callbacks follow one order, and each
receives the bytes of its broadcast. -/
def Uniform : Prop :=
  (∃ order, s.Follows order) ∧ ∀ p, ∀ d ∈ s.handled p, d.received = some d.broadcast

end BcastState
end Damaris.Comm
