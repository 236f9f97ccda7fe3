import Damaris.Client.Client
import Damaris.Server.Iteration
import Damaris.Server.WriteRoundTrip

/-!
# Standalone mode

`StandaloneClient` is a client without a server: its variables keep what it writes, and it
updates the storage itself. Here it runs next to an ordinary client of the same program
and that client's server. Memory always suffices: a request is met by a region that was never
handed out before, and `memory` holds what was copied into each.
-/
namespace Damaris

open Data Msg

/-- `StandaloneClient::Write`, with the region it fills. -/
def Client.standaloneWrite {A : Type*} (c : Client A) (id block : ℤ)
    (buffer : Option (Buffer Unit A)) : Client A × Status × Option A :=
  match c.search id block with
  | .error e => (c, e, none)
  | .ok v =>
    match v.allocate buffer c.source c.iteration block with
    | (v', none) => ({ c with vars := c.vars.set id v', errorOccured := true }, .ALLOCATION_ERROR, none)
    | (v', some b) =>
      let c' := { c with vars := c.vars.set id v' }
      match b.dataspace with
      | none => (c', .DATASPACE_ERROR, none)
      | some a => (c', .OK, some a)

namespace Standalone

/-- What the regions hold, by their numbers. -/
abbrev Memory := List (List UInt8)

/-- The segment whose next region has this number. -/
def heap (next : ℕ) : Segment ℕ ℕ := .plain fun n => (n, some next)

/-- `memcpy` into a new region. -/
def copy (memory : Memory) (data : List UInt8) : Option (ℕ × ℕ) → Memory
  | none => memory
  | some ds => memory ++ [data.take ds.2]

/-- The blocks of an iteration that `StorageManager::Update` finds for a source, by variable
and domain. -/
def update (vs : Variables (ℕ × ℕ)) (source iteration : ℤ) : ℤ → ℤ → Option (Block (ℕ × ℕ)) :=
  fun id bid => (vs id).bind fun v => v.blocks.find (source, iteration, bid)

/-- A block with its bytes in place of its region. -/
def contents (memory : Memory) (b : Block (ℕ × ℕ)) : Block (List UInt8) where
  source := b.source
  iteration := b.iteration
  id := b.id
  lowerBounds := b.lowerBounds
  upperBounds := b.upperBounds
  globalDims := b.globalDims
  ghosts := b.ghosts
  dataspace := b.dataspace.bind fun ds => (memory[ds.1]?).map (List.take ds.2)
  readOnly := b.readOnly

/-- A call of the program. -/
inductive Request
  | setPosition (id block : ℤ) (p : List ℤ)
  | write (id block : ℤ) (data : List UInt8)
  | endIteration

/-- The client without a server. `codes` and `updates` are history: what its calls of `Write`
have returned and what each `StorageManager::Update` has found. -/
structure Alone where
  client : Client (ℕ × ℕ)
  memory : Memory
  codes : List Status
  updates : List (ℤ → ℤ → Option (Block (ℕ × ℕ)))

def Alone.request (s : Alone) : Request → Alone
  | .setPosition id block p => { s with client := (s.client.setPosition id block p).1 }
  | .write id block data =>
    let r := s.client.standaloneWrite id block (some (heap s.memory.length).client)
    { s with client := r.1, memory := copy s.memory data r.2.2, codes := s.codes ++ [r.2.1] }
  | .endIteration =>
    { s with
      client := s.client.startNextIteration
      updates := s.updates ++ [update s.client.vars s.client.source s.client.iteration] }

/-- The server's side: its variables, the iteration it is in, and what its updates have found. -/
structure Core where
  vars : Variables (ℕ × ℕ)
  iteration : ℤ
  updates : List (ℤ → ℤ → Option (Block (ℕ × ℕ)))

/-- The handler of a message. `gc` says whether the garbage collector is among the actions
that end an iteration. -/
def Core.handle (s : Core) (gc : Bool) (source : ℤ) : Operation (Option ℕ) Empty → Option Core
  | .write wr => (s.vars.onWrite (some (heap 0).server) source wr).map fun x => { s with vars := x.1 }
  | .endIteration errors =>
    some { s with
      vars := if gc then Iteration.collect s.vars s.iteration else s.vars
      iteration := s.iteration + 1
      updates := if errors then s.updates else s.updates ++ [update s.vars source s.iteration] }
  | _ => some s

/-- A client and its dedicated core, with the messages in between. -/
structure Node where
  client : Client (ℕ × ℕ)
  memory : Memory
  codes : List Status
  queue : List (Operation (Option ℕ) Empty)
  core : Core

def Node.request (s : Node) : Request → Node
  | .setPosition id block p => { s with client := (s.client.setPosition id block p).1 }
  | .write id block data =>
    let seg := heap s.memory.length
    let r := s.client.write id block (some seg.client)
    { s with
      client := r.1
      memory := copy s.memory data (r.2.2.bind WriteMessage.handle)
      codes := s.codes ++ [r.2.1]
      queue := s.queue ++ (r.2.2.map fun wr => .write (seg.encode wr)).toList }
  | .endIteration =>
    { s with
      client := s.client.startNextIteration
      queue := s.queue ++ [.endIteration s.client.errorOccured] }

def Node.handle (s : Node) (gc : Bool) : Option Node :=
  match s.queue with
  | [] => none
  | m :: rest => (s.core.handle gc s.client.source m).map fun core => { s with queue := rest, core := core }

/-- The two modes side by side. -/
structure State where
  alone : Alone
  node : Node

inductive Action
  | request (r : Request)
  | handle

def State.step (gc : Bool) (s : State) : Action → Option State
  | .request r => some ⟨s.alone.request r, s.node.request r⟩
  | .handle => (s.node.handle gc).map fun node => { s with node := node }

def State.initial (config : ℤ → Option (Bool × Layout)) (source numDomains : ℤ) : State :=
  let client : Client (ℕ × ℕ) := ⟨source, 0, numDomains, .new config, false⟩
  ⟨⟨client, [], [], []⟩, ⟨client, [], [], [], ⟨.new config, 0, []⟩⟩⟩

/-- What the updates have found, with the bytes: a region is never written to again. -/
def outputs (memory : Memory) (updates : List (ℤ → ℤ → Option (Block (ℕ × ℕ)))) :
    List (ℤ → ℤ → Option (Block (List UInt8))) :=
  updates.map fun u id bid => (u id bid).map (contents memory)

/-- The condition on a step: no block is written that its variable still has. -/
def State.Fresh (s : State) : Action → Prop
  | .request (.write id block _) => ∀ v, s.alone.client.search id block = .ok v →
      v.getBlock s.alone.client.source s.alone.client.iteration block = none
  | _ => True

end Standalone
end Damaris
