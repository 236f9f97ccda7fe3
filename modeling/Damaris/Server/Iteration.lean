import Mathlib.Tactic
import Damaris.Lib.StepSystem
import Damaris.Comm.MPI2Reactor
import Damaris.Client.Client
import Damaris.Server.Handlers

/-!
# Iterations, across all servers and clients

The servers of a simulation, each with its `m` clients. The clients agree on
the end of an iteration through an `MPI_Allreduce`; a server counts the headers
that end an iteration, and the servers agree through `Sync`. A header and what
follows it are one message here, in the order in which the client sent them.
-/
namespace Damaris.Iteration

open Damaris.Data Damaris.Msg Damaris.Comm

/-- `ITERATION_SYNC`. -/
def ITERATION_SYNC : ℤ := 2

/-- What a client sends to its server. -/
abbrev Sent (G : Type*) := Operation (Option G) Empty

/-- What a handler does to the server's variables; `none` when it dereferences a
null block. -/
def receive {G : Type*} (vs : Variables G) (source : ℤ) : Sent G → Option (Variables G)
  | .write wr => (vs.onWrite (some shared) source wr).map Prod.fst
  | .commit wr => vs.onCommit (some shared) source wr
  | .clear m => vs.onClear source m
  | _ => some vs

/-- `GarbageCollector::Call`. No client is in an iteration below -1, so erasing
is defined. -/
def collect {G : Type*} (vs : Variables G) (iteration : ℤ) : Variables G := fun id =>
  (vs id).map fun v => if v.timeVarying then (v.clearUpToIteration iteration).getD v else v

/-- One server. `armed` counts the receives of headers that are outstanding on a
client's channel; `locks` is the counter of `StartNextIteration`. `handled`,
`updates` and `errors` are history: the messages handled, the iteration and the
variables that each `StorageManager::Update` saw, the iteration of each run of
`#error`. -/
structure Server (m : ℕ) (G : Type*) where
  armed : Fin m → ℕ
  locks : ℕ
  lastIteration : ℕ
  stopRequests : Finset (Fin m)
  stopped : Bool
  vars : Variables G
  handled : Fin m → List (Sent G)
  updates : List (ℤ × Variables G)
  errors : List ℤ

namespace Server

variable {m : ℕ} {G : Type*}

/-- A server that has entered `Run`: it listens to every client. -/
def run (config : ℤ → Option (Bool × Layout)) : Server m G :=
  ⟨fun _ => 1, 0, 0, ∅, false, .new config, fun _ => [], [], []⟩

/-- `AsyncRecv` of a client's header. -/
def asyncRecv (sv : Server m G) (i : Fin m) : Server m G :=
  { sv with armed := Function.update sv.armed i (sv.armed i + 1) }

/-- A receive completes. -/
def complete (sv : Server m G) (i : Fin m) : Server m G :=
  { sv with armed := Function.update sv.armed i (sv.armed i - 1) }

/-- `Environment::StartNextIteration` on a server. -/
def startNextIteration (sv : Server m G) : Server m G × Bool :=
  if sv.locks + 1 = m then ({ sv with locks := 0, lastIteration := sv.lastIteration + 1 }, true)
  else ({ sv with locks := sv.locks + 1 }, false)

/-- `OnStop`. -/
def onStop (sv : Server m G) (i : Fin m) : Server m G :=
  let requests := insert i sv.stopRequests
  if requests.card = m then { sv with stopRequests := ∅, stopped := true }
  else { sv with stopRequests := requests }

/-- The action `#error`: the garbage collector, unless the configuration has
replaced it. -/
def onError (sv : Server m G) (gc : Bool) : Server m G :=
  let iteration : ℤ := (sv.lastIteration : ℤ) - 1
  { sv with
    errors := sv.errors ++ [iteration]
    vars := if gc then collect sv.vars iteration else sv.vars }

/-- `OnNextIteration`, `OnNextIterationWithErrors`, `OnStop`; the other handlers
change the variables only. The flag is a call of `Sync(ITERATION_SYNC)`. -/
def onSignal (sv : Server m G) (i : Fin m) (gc : Bool) : Sent G → Server m G × Bool
  | .stop => (sv.onStop i, false)
  | .endIteration false => sv.startNextIteration
  | .endIteration true =>
    let (sv, full) := sv.startNextIteration
    (if full then sv.onError gc else sv, false)
  | _ => (sv, false)

/-- `Server::OnHeader`, which listens to the client again unless the iteration
has ended without errors. -/
def onHeader (sv : Server m G) (source : ℤ) (i : Fin m) (gc : Bool) (op : Sent G) :
    Option (Server m G × Bool) :=
  (receive sv.vars source op).map fun vs =>
    let sv := { sv with vars := vs, handled := Function.update sv.handled i (sv.handled i ++ [op]) }
    let (sv, sync) := sv.onSignal i gc op
    (if op.type = .NEXT_ITERATION then sv else sv.asyncRecv i, sync)

/-- `Server::EndOfIterationCallback`, which listens to all clients again. The
garbage collector is among the actions it runs only where these are compiled in. -/
def endOfIterationCallback (sv : Server m G) (gc : Bool) : Server m G :=
  let iteration : ℤ := (sv.lastIteration : ℤ) - 1
  { sv with
    armed := fun i => sv.armed i + 1
    updates := sv.updates ++ [(iteration, sv.vars)]
    vars := if gc then collect sv.vars iteration else sv.vars }

end Server

/-- A client: its server, and its number there. -/
abbrev Peer (c : Topology) (m : ℕ) := c.Rank × Fin m

/-- All parties. `votes` are what a client has contributed to the `Allreduce` of
each `EndIteration` it has called, `left` counts those it has returned from. -/
structure State (c : Topology) (m : ℕ) (G : Type*) where
  clients : Peer c m → Client G
  votes : Peer c m → List Bool
  left : Peer c m → ℕ
  queue : Peer c m → List (Sent G)
  servers : c.Rank → Server m G
  sync : SyncState c

inductive Action (c : Topology) (m : ℕ) (G : Type*)
  | call (x : Peer c m) (req : Client.Request G)
  | enter (x : Peer c m)
  | leave (x : Peer c m)
  | handle (p : c.Rank) (i : Fin m) (gc : Bool)
  | deliver (p : c.Rank) (message : Message) (source : c.Rank) (gc : Bool)

namespace State

variable {c : Topology} {m : ℕ} {G : Type*}

/-- The result of the `k`-th `Allreduce`: some client has had an error. -/
def failed (s : State c m G) (k : ℕ) : Bool := decide (∃ x, (s.votes x)[k]? = some true)

/-- All that a client has sent to its server, oldest first. -/
def sent (s : State c m G) (x : Peer c m) : List (Sent G) :=
  (s.servers x.1).handled x.2 ++ s.queue x

/-- Puts a server into place, and lets it call `Sync` if it has to. -/
def setServer (s : State c m G) (p : c.Rank) (sv : Server m G) (sync : Bool) : State c m G :=
  { s with
    servers := Function.update s.servers p sv
    sync := if sync then s.sync.sync p ITERATION_SYNC else s.sync }

def step (s : State c m G) : Action c m G → Option (State c m G)
  | .call x req =>
    if (s.votes x).length = s.left x then
      let r := (s.clients x).request req
      some { s with
        clients := Function.update s.clients x r.1
        queue := Function.update s.queue x (s.queue x ++ r.2.toList) }
    else none
  | .enter x =>
    if (s.votes x).length = s.left x then
      some { s with votes := Function.update s.votes x (s.votes x ++ [(s.clients x).errorOccured]) }
    else none
  | .leave x =>
    -- the reduction returns once every client has taken part in it
    if (s.votes x).length = s.left x + 1 ∧ ∀ y, s.left x < (s.votes y).length then
      some { s with
        clients := Function.update s.clients x (s.clients x).startNextIteration
        left := Function.update s.left x (s.left x + 1)
        queue := Function.update s.queue x (s.queue x ++ [.endIteration (s.failed (s.left x))]) }
    else none
  | .handle p i gc =>
    match s.queue (p, i) with
    | [] => none
    | op :: rest =>
      let sv := s.servers p
      if sv.armed i = 0 ∨ sv.stopped then none
      else
        ((sv.complete i).onHeader (s.clients (p, i)).source i gc op).map fun x =>
          { s with queue := Function.update s.queue (p, i) rest }.setServer p x.1 x.2
  | .deliver p message source gc =>
    if (s.servers p).stopped then none
    else
      (s.sync.deliver p (fun _ tag => tag = ITERATION_SYNC) message source).map fun sync =>
        -- the callback runs when the message is the wave of the tag
        if (sync.ran p).count ITERATION_SYNC = (s.sync.ran p).count ITERATION_SYNC then
          { s with sync := sync }
        else
          { s with
            sync := sync
            servers := Function.update s.servers p ((s.servers p).endOfIterationCallback gc) }

/-- Every client has its own source, its rank among the clients. -/
def initial (config : ℤ → Option (Bool × Layout)) (source : Peer c m ↪ ℤ) (numDomains : ℤ) :
    State c m G where
  clients := fun x => ⟨source x, 0, numDomains, .new config, false⟩
  votes := fun _ => []
  left := fun _ => 0
  queue := fun _ => []
  servers := fun _ => .run config
  sync := .initial

/-- A server changes by handling a message of one of its clients, or by the
callback of the synchronisation. -/
theorem servers_step {s s' : State c m G} {a : Action c m G} (h : s.step a = some s')
    (p : c.Rank) :
    s'.servers p = s.servers p ∨
      (∃ i gc op rest sync, a = .handle p i gc ∧ s.queue (p, i) = op :: rest ∧
        (s.servers p).armed i ≠ 0 ∧
        ((s.servers p).complete i).onHeader (s.clients (p, i)).source i gc op =
          some (s'.servers p, sync)) ∨
      ∃ message source gc sync, a = .deliver p message source gc ∧ (s.servers p).stopped = false ∧
        s.sync.deliver p (fun _ tag => tag = ITERATION_SYNC) message source = some sync ∧
        (sync.ran p).count ITERATION_SYNC ≠ (s.sync.ran p).count ITERATION_SYNC ∧
        s'.servers p = (s.servers p).endOfIterationCallback gc := by
  cases a with
  | call x req =>
    simp only [step] at h
    split_ifs at h
    obtain rfl := Option.some.inj h
    exact .inl rfl
  | enter x =>
    simp only [step] at h
    split_ifs at h
    obtain rfl := Option.some.inj h
    exact .inl rfl
  | leave x =>
    simp only [step] at h
    split_ifs at h
    obtain rfl := Option.some.inj h
    exact .inl rfl
  | handle q i gc =>
    cases hq : s.queue (q, i) with
    | nil => simp [step, hq] at h
    | cons op rest =>
      simp only [step, hq] at h
      split_ifs at h with harmed
      obtain ⟨⟨sv, sync⟩, hx, rfl⟩ := Option.map_eq_some_iff.mp h
      by_cases hp : p = q
      · subst hp
        have hself : (setServer { s with queue := Function.update s.queue (p, i) rest } p sv
            sync).servers p = sv := Function.update_self _ _ _
        rw [hself]
        exact .inr (.inl ⟨i, gc, op, rest, sync, rfl, hq, fun h0 => harmed (.inl h0), hx⟩)
      · exact .inl (Function.update_of_ne hp _ _)
  | deliver q message source gc =>
    simp only [step] at h
    split_ifs at h with hstopped
    obtain ⟨sync, hsync, hs'⟩ := Option.map_eq_some_iff.mp h
    split_ifs at hs' with hran
    · exact .inl (hs' ▸ rfl)
    · subst hs'
      by_cases hp : p = q
      · subst hp
        refine .inr (.inr ⟨message, source, gc, sync, rfl, Bool.eq_false_iff.mpr hstopped, hsync,
          hran, Function.update_self _ _ _⟩)
      · exact .inl (Function.update_of_ne hp _ _)

end State
end Damaris.Iteration
