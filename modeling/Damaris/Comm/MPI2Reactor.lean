import Mathlib.Tactic
import Damaris.Lib.Fifo
import Damaris.Lib.StepSystem
import Damaris.Comm.Topology

/-!
# The synchronisation half of `MPI2Reactor`

Each rank holds the sets and maps of the class and handles one message at a
time. `std::map<int,T>` is a function into `Option`: `count` is `isSome` and
`operator[]` on a missing key starts from zero. `Send` never blocks here; the
messages of one sender, receiver and MPI tag arrive in order.
-/
namespace Damaris.Comm

/-- The MPI tags of `Reactor::Message`. -/
inductive Message
  | BCAST
  | DISPATCH
  | SYNC
  | SYNC_WAVE
  deriving DecidableEq, Repr

/-- The enumerator's value, which is what a callback receives as `int tag`. -/
def Message.code : Message → ℤ
  | .BCAST => 0
  | .DISPATCH => 1
  | .SYNC => 2
  | .SYNC_WAVE => 3

structure MsgInfo (c : Topology) where
  root : c.Rank
  tag : ℤ
  count : ℤ
  deriving DecidableEq

/-- One ordered stream of messages: an MPI tag between two ranks. -/
structure Link (c : Topology) where
  message : Message
  source : c.Rank
  dest : c.Rank
  deriving DecidableEq

/-- What a rank forwards to its children joins the stream from it to each of them, and no other. -/
theorem pushAll_forward {c : Topology} (m : Message) (p source q : c.Rank) (info : MsgInfo c)
    (net : Fifo.Channels (Link c) (MsgInfo c)) :
    Fifo.pushAll net ((c.children p).map fun x => (⟨m, p, x⟩, info)) ⟨m, source, q⟩ =
      net ⟨m, source, q⟩ ++ if source = p ∧ q ∈ c.children p then [info] else [] := by
  have hkeys : ((c.children p).map fun x => (⟨m, p, x⟩ : Link c)).Nodup :=
    (c.children_nodup p).map fun x y h => ((Link.mk.injEq ..).mp h).2.2
  have hmem : ⟨m, source, q⟩ ∈ (c.children p).map (fun x => (⟨m, p, x⟩ : Link c)) ↔
      source = p ∧ q ∈ c.children p := by
    rw [List.mem_map]
    constructor
    · rintro ⟨x, hx, h⟩
      obtain ⟨-, rfl, rfl⟩ := (Link.mk.injEq ..).mp h
      exact ⟨rfl, hx⟩
    · rintro ⟨rfl, hq⟩
      exact ⟨q, hq, rfl⟩
  have hcopies := Fifo.pushAll_copies net hkeys info ⟨m, source, q⟩
  rw [List.map_map] at hcopies
  rw [← if_congr hmem rfl rfl, ← hcopies]
  rfl

/-- The stream from its parent gets one copy for a child, and nothing for another rank. -/
theorem pushAll_children {c : Topology} (m : Message) (p q : c.Rank) (info : MsgInfo c)
    (net : Fifo.Channels (Link c) (MsgInfo c)) :
    Fifo.pushAll net ((c.children p).map fun x => (⟨m, p, x⟩, info)) ⟨m, c.parent q, q⟩ =
      net ⟨m, c.parent q, q⟩ ++ if q ∈ c.children p then [info] else [] := by
  have hparent : (c.parent q = p ∧ q ∈ c.children p) ↔ q ∈ c.children p :=
    and_iff_right_of_imp fun hq => (c.mem_children.mp hq).2
  rw [pushAll_forward, if_congr hparent rfl rfl]

/-- The fields of `MPI2Reactor` that `Sync` and `SyncCallback` use. -/
structure MPI2Reactor where
  syncTags : Finset ℤ
  pendingSyncTags : ℤ → Option ℤ
  syncCounters : ℤ → Option ℕ

namespace MPI2Reactor

/-- `New` starts every container empty. -/
def new : MPI2Reactor := ⟨∅, fun _ => none, fun _ => none⟩

variable (c : Topology)

/-- What one call leaves behind: the fields, and the messages it sent in order. -/
structure Outcome where
  reactor : MPI2Reactor
  sends : List (Link c × MsgInfo c)

/-- `map[tag] = 1` for a missing key, `map[tag] += 1` for a present one. -/
def countUp (counters : ℤ → Option ℕ) (tag : ℤ) : ℤ → Option ℕ :=
  Function.update counters tag (some ((counters tag).getD 0 + 1))

/-- Both `Sync` and `SyncCallback` end with this test: at the critical mass the
root starts a wave (to itself), every other rank tells its parent. -/
def sendAtCriticalMass (rank : c.Rank) (info : MsgInfo c) (r : MPI2Reactor) :
    List (Link c × MsgInfo c) :=
  if r.syncCounters info.tag = some ((c.children rank).length + 1) then
    [(⟨if rank = c.leader then .SYNC_WAVE else .SYNC, rank, c.parent rank⟩, info)]
  else []

/-- `MPI2Reactor::Sync`. -/
def sync (rank : c.Rank) (tag : ℤ) (r : MPI2Reactor) : Outcome c :=
  if tag ∈ r.syncTags then
    let pending := Function.update r.pendingSyncTags tag
      (some ((r.pendingSyncTags tag).getD 0 + 1))
    ⟨{ r with pendingSyncTags := pending }, []⟩
  else
    let info : MsgInfo c := ⟨rank, tag, 0⟩
    let r := { r with
      syncTags := insert tag r.syncTags
      syncCounters := countUp r.syncCounters tag }
    ⟨r, sendAtCriticalMass c rank info r⟩

/-- The wave's passage: its tag's counter and set entry are reset. -/
def reset (tag : ℤ) (r : MPI2Reactor) : MPI2Reactor :=
  { r with
    syncCounters := Function.update r.syncCounters tag none
    syncTags := r.syncTags.erase tag }

/-- The replay of a queued sync. The source looks it up under `tag`, the MPI
tag the callback was given (`SYNC_WAVE`), not under `info->tag`. After the
decrement the key is still in the map, so its `count` is not zero and the entry
is never erased. -/
def replay (rank : c.Rank) (m : Message) (r : MPI2Reactor) : Outcome c :=
  match r.pendingSyncTags m.code with
  | none => ⟨r, []⟩
  | some k =>
    sync c rank m.code
      { r with pendingSyncTags := Function.update r.pendingSyncTags m.code (some (k - 1)) }

/-- `MPI2Reactor::SyncCallback`, less the call of the bound callback and the
receive it posts again (`rearm`). -/
def syncCallback (rank : c.Rank) (m : Message) (info : MsgInfo c) (r : MPI2Reactor) : Outcome c :=
  if m = .SYNC_WAVE then
    let forward := (c.children rank).map fun q => (⟨.SYNC_WAVE, rank, q⟩, info)
    let rest := replay c rank m (reset info.tag r)
    ⟨rest.reactor, forward ++ rest.sends⟩
  else
    let r := { r with syncCounters := countUp r.syncCounters info.tag }
    ⟨r, sendAtCriticalMass c rank info r⟩

/-- The callback that `SyncCallback` runs on a wave: the one bound to the tag, if any. -/
def callback (bound : ℤ → Bool) (m : Message) (info : MsgInfo c) : Option ℤ :=
  if m = .SYNC_WAVE ∧ bound info.tag then some info.tag else none

/-- The receives that `Init` posts: `SYNC` from each child, `SYNC_WAVE` from the parent. -/
def Listens (rank : c.Rank) (m : Message) (source : c.Rank) : Prop :=
  (m = .SYNC ∧ source ∈ c.children rank) ∨ (m = .SYNC_WAVE ∧ source = c.parent rank)

instance (rank : c.Rank) (m : Message) (source : c.Rank) : Decidable (Listens c rank m source) :=
  inferInstanceAs (Decidable (_ ∨ _))

/-- The receive posted at the end of `SyncCallback`. -/
def rearm (rank source : c.Rank) : Message :=
  if source ≠ c.parent rank then .SYNC else .SYNC_WAVE

/-- The receive posted again is the one that was consumed, so every channel of
the tree is listened to whenever a handler is not running. -/
theorem rearm_eq {rank source : c.Rank} {m : Message} (h : Listens c rank m source) :
    rearm c rank source = m := by
  rcases h with ⟨rfl, hmem⟩ | ⟨rfl, rfl⟩
  · obtain ⟨hne, hp⟩ := c.mem_children.mp hmem
    have hlt := c.parent_lt hne
    have hsp : source ≠ c.parent rank := by
      intro he
      have hle : (c.parent rank).val ≤ rank.val := by
        by_cases hr : rank = c.leader
        · simp [hr]
        · exact (c.parent_lt hr).le
      rw [hp] at hlt
      rw [← he] at hle
      omega
    rw [rearm, if_pos hsp]
  · simp [rearm]

end MPI2Reactor

/-! ## All the ranks of a communicator -/

/-- The reactors of all ranks and the messages between them. `called` and `ran`
are history: how often each rank's user called `Sync` with a tag, and the tags
of the callbacks each rank has run, oldest first. -/
structure SyncState (c : Topology) where
  reactors : c.Rank → MPI2Reactor
  net : Fifo.Channels (Link c) (MsgInfo c)
  called : c.Rank → ℤ → ℕ
  ran : c.Rank → List ℤ

inductive SyncAction (c : Topology)
  | sync (p : c.Rank) (tag : ℤ)
  | deliver (p : c.Rank) (m : Message) (source : c.Rank)

namespace SyncState

variable {c : Topology}

def initial : SyncState c := ⟨fun _ => .new, fun _ => [], fun _ _ => 0, fun _ => []⟩

def setReactor (s : SyncState c) (p : c.Rank) (r : MPI2Reactor) : SyncState c :=
  { s with reactors := Function.update s.reactors p r }

def send (s : SyncState c) (out : List (Link c × MsgInfo c)) : SyncState c :=
  { s with net := Fifo.pushAll s.net out }

def withNet (s : SyncState c) (net : Fifo.Channels (Link c) (MsgInfo c)) : SyncState c :=
  { s with net := net }

/-- Records the callbacks rank `p` has run. -/
def log (s : SyncState c) (p : c.Rank) (tags : List ℤ) : SyncState c :=
  { s with ran := Function.update s.ran p (s.ran p ++ tags) }

@[simp] theorem setReactor_reactors (s : SyncState c) (p : c.Rank) (r : MPI2Reactor) :
    (s.setReactor p r).reactors = Function.update s.reactors p r := rfl

@[simp] theorem setReactor_net (s : SyncState c) (p : c.Rank) (r : MPI2Reactor) :
    (s.setReactor p r).net = s.net := rfl

@[simp] theorem setReactor_called (s : SyncState c) (p : c.Rank) (r : MPI2Reactor) :
    (s.setReactor p r).called = s.called := rfl

@[simp] theorem setReactor_ran (s : SyncState c) (p : c.Rank) (r : MPI2Reactor) :
    (s.setReactor p r).ran = s.ran := rfl

@[simp] theorem send_reactors (s : SyncState c) (out : List (Link c × MsgInfo c)) :
    (s.send out).reactors = s.reactors := rfl

@[simp] theorem send_net (s : SyncState c) (out : List (Link c × MsgInfo c)) :
    (s.send out).net = Fifo.pushAll s.net out := rfl

@[simp] theorem send_called (s : SyncState c) (out : List (Link c × MsgInfo c)) :
    (s.send out).called = s.called := rfl

@[simp] theorem send_ran (s : SyncState c) (out : List (Link c × MsgInfo c)) :
    (s.send out).ran = s.ran := rfl

variable (s : SyncState c) (net : Fifo.Channels (Link c) (MsgInfo c))

@[simp] theorem withNet_reactors : (s.withNet net).reactors = s.reactors := rfl

@[simp] theorem withNet_net : (s.withNet net).net = net := rfl

@[simp] theorem withNet_called : (s.withNet net).called = s.called := rfl

@[simp] theorem withNet_ran : (s.withNet net).ran = s.ran := rfl

variable (p : c.Rank) (tags : List ℤ)

@[simp] theorem log_reactors : (s.log p tags).reactors = s.reactors := rfl

@[simp] theorem log_net : (s.log p tags).net = s.net := rfl

@[simp] theorem log_called : (s.log p tags).called = s.called := rfl

@[simp] theorem log_ran :
    (s.log p tags).ran = Function.update s.ran p (s.ran p ++ tags) := rfl

/-- Puts what a call at rank `p` left behind into place. -/
def after (o : MPI2Reactor.Outcome c) : SyncState c :=
  (s.setReactor p o.reactor).send o.sends

/-- The user of rank `p` calls `Sync(tag)`. -/
def sync (tag : ℤ) : SyncState c :=
  { s.after p (MPI2Reactor.sync c p tag (s.reactors p)) with
    called := Function.update s.called p
      (Function.update (s.called p) tag (s.called p tag + 1)) }

/-- Rank `p` handles the oldest message of one stream it listens to. -/
def deliver (bound : c.Rank → ℤ → Bool) (m : Message) (source : c.Rank) :
    Option (SyncState c) :=
  if MPI2Reactor.Listens c p m source then
    (Fifo.pop s.net ⟨m, source, p⟩).map fun (info, net) =>
      ((s.withNet net).after p (MPI2Reactor.syncCallback c p m info (s.reactors p))).log p
        (MPI2Reactor.callback c (bound p) m info).toList
  else none

def step (bound : c.Rank → ℤ → Bool) (s : SyncState c) : SyncAction c → Option (SyncState c)
  | .sync p tag => some (s.sync p tag)
  | .deliver p m source => s.deliver p bound m source

/-- Nothing is in flight. -/
def Quiescent (s : SyncState c) : Prop := ∀ l, s.net l = []

end SyncState
end Damaris.Comm
