import Mathlib.Tactic
import Damaris.Msg.Signals

/-!
# The three streams of a client

A client's call sends a header, then the body that goes with it, then for a
remote write the data, each under its own MPI tag. Within a tag messages keep
their order; nothing relates two tags. Every message carries the number of the
call that sent it, which no code reads.
-/
namespace Damaris.Msg

/-- What one call of a client sends. -/
inductive Operation (H B : Type*)
  | connect
  | stop
  | endIteration (errors : Bool)
  | event (bcast : Bool) (ev : EventMessage)
  | write (wr : WriteMessage H)
  | commit (wr : WriteMessage H)
  | clear (m : ClearMessage)
  | remoteWrite (rwm : RemoteWriteMessage) (data : B)

/-- The structures that travel as a body. -/
inductive Body (H : Type*)
  | event (ev : EventMessage)
  | write (wr : WriteMessage H)
  | remoteWrite (rwm : RemoteWriteMessage)
  | clear (m : ClearMessage)

namespace Operation

variable {H B : Type*}

def type : Operation H B → SignalType
  | .connect => .CONNECT
  | .stop => .STOP
  | .endIteration false => .NEXT_ITERATION
  | .endIteration true => .NEXT_ITERATION_ERR
  | .event false _ => .CALL_ACTION
  | .event true _ => .BCAST_ACTION
  | .write _ => .WRITE
  | .commit _ => .COMMIT
  | .clear _ => .CLEAR
  | .remoteWrite _ _ => .REMOTE_WRITE

def body : Operation H B → Option (Body H)
  | .event _ ev => some (.event ev)
  | .write wr => some (.write wr)
  | .commit wr => some (.write wr)
  | .clear m => some (.clear m)
  | .remoteWrite rwm _ => some (.remoteWrite rwm)
  | _ => none

def data : Operation H B → Option B
  | .remoteWrite _ x => some x
  | _ => none

theorem body_isSome (op : Operation H B) : op.body.isSome = op.type.bearsBody := by
  cases op with
  | endIteration errors => cases errors <;> rfl
  | event bcast ev => cases bcast <;> rfl
  | _ => rfl

theorem data_isSome (op : Operation H B) : op.data.isSome ↔ op.type = .REMOTE_WRITE := by
  cases op with
  | endIteration errors => cases errors <;> simp [data, type]
  | event bcast ev => cases bcast <;> simp [data, type]
  | _ => simp [data, type]

end Operation

/-- One message on its way. -/
inductive Packet (H B : Type*)
  | header (n : ℕ) (type : SignalType)
  | body (n : ℕ) (b : Body H)
  | data (n : ℕ) (x : B)

namespace Packet

variable {H B : Type*}

def header? : Packet H B → Option (ℕ × SignalType)
  | .header n t => some (n, t)
  | _ => none

def body? : Packet H B → Option (ℕ × Body H)
  | .body n b => some (n, b)
  | _ => none

def data? : Packet H B → Option (ℕ × B)
  | .data n x => some (n, x)
  | _ => none

end Packet

/-- What call number `n` sends, in order. -/
def Operation.packets {H B : Type*} (n : ℕ) (op : Operation H B) : List (Packet H B) :=
  .header n op.type :: ((op.body.map (Packet.body n)).toList ++ (op.data.map (Packet.data n)).toList)

/-- A client and its channel to the server: the calls it has made, the packets
of its current call that it has yet to send, and the three streams. -/
structure Link (H B : Type*) where
  sent : List (Operation H B)
  outbox : List (Packet H B)
  headers : List (ℕ × SignalType)
  bodies : List (ℕ × Body H)
  datas : List (ℕ × B)

namespace Link

variable {H B : Type*} {l l' : Link H B}

def new : Link H B := ⟨[], [], [], [], []⟩

/-- The client's next call, once all packets of the last one are sent. -/
def issue (l : Link H B) (op : Operation H B) : Option (Link H B) :=
  if l.outbox.isEmpty then
    some { l with sent := l.sent ++ [op], outbox := op.packets l.sent.length }
  else none

/-- The client's next send. -/
def transmit (l : Link H B) : Option (Link H B) :=
  match l.outbox with
  | [] => none
  | .header n t :: rest => some { l with outbox := rest, headers := l.headers ++ [(n, t)] }
  | .body n b :: rest => some { l with outbox := rest, bodies := l.bodies ++ [(n, b)] }
  | .data n x :: rest => some { l with outbox := rest, datas := l.datas ++ [(n, x)] }

/-- The streams hold, call by call, what the calls not yet handled send. -/
structure Framed (l : Link H B) (pending : List (ℕ × Operation H B)) : Prop where
  known : ∀ p ∈ pending, l.sent[p.1]? = some p.2
  headers : l.headers ++ l.outbox.filterMap Packet.header? =
    pending.map fun p => (p.1, p.2.type)
  bodies : l.bodies ++ l.outbox.filterMap Packet.body? =
    pending.filterMap fun p => p.2.body.map fun b => (p.1, b)
  datas : l.datas ++ l.outbox.filterMap Packet.data? =
    pending.filterMap fun p => p.2.data.map fun x => (p.1, x)

theorem framed_new : (new : Link H B).Framed [] := ⟨nofun, rfl, rfl, rfl⟩

theorem filterMap_packets (n : ℕ) (op : Operation H B) :
    (op.packets n).filterMap Packet.header? = [(n, op.type)] ∧
      (op.packets n).filterMap Packet.body? = (op.body.map fun b => (n, b)).toList ∧
      (op.packets n).filterMap Packet.data? = (op.data.map fun x => (n, x)).toList := by
  cases op <;> exact ⟨rfl, rfl, rfl⟩

theorem Framed.issue {pending : List (ℕ × Operation H B)} (h : l.Framed pending)
    {op : Operation H B} (hs : l.issue op = some l') :
    l'.Framed (pending ++ [(l.sent.length, op)]) ∧ l'.sent = l.sent ++ [op] := by
  unfold Link.issue at hs
  split_ifs at hs with hempty
  obtain rfl := Option.some.inj hs
  have hnil : l.outbox = [] := List.isEmpty_iff.mp hempty
  obtain ⟨hheader, hbody, hdata⟩ := filterMap_packets l.sent.length op
  have h₁ := h.headers
  have h₂ := h.bodies
  have h₃ := h.datas
  simp only [hnil, List.filterMap_nil, List.append_nil] at h₁ h₂ h₃
  refine ⟨⟨fun p hp => ?_, ?_, ?_, ?_⟩, rfl⟩
  · rcases List.mem_append.mp hp with hp | hp
    · have hold := h.known p hp
      obtain ⟨hlt, -⟩ := List.getElem?_eq_some_iff.mp hold
      simpa only [List.getElem?_append_left hlt] using hold
    · obtain rfl := List.mem_singleton.mp hp
      simp
  · simp [hheader, h₁]
  · rw [hbody, List.filterMap_append, ← h₂]
    cases hop : op.body <;> simp [hop]
  · rw [hdata, List.filterMap_append, ← h₃]
    cases hop : op.data <;> simp [hop]

theorem Framed.transmit {pending : List (ℕ × Operation H B)} (h : l.Framed pending)
    (hs : l.transmit = some l') : l'.Framed pending ∧ l'.sent = l.sent := by
  unfold Link.transmit at hs
  have h₁ := h.headers
  have h₂ := h.bodies
  have h₃ := h.datas
  cases hout : l.outbox with
  | nil => simp [hout] at hs
  | cons p rest =>
    rw [hout] at h₁ h₂ h₃
    cases p with
    | header n t =>
      simp only [hout] at hs
      obtain rfl := Option.some.inj hs
      exact ⟨⟨h.known, (List.append_assoc _ _ _).trans h₁, h₂, h₃⟩, rfl⟩
    | body n b =>
      simp only [hout] at hs
      obtain rfl := Option.some.inj hs
      exact ⟨⟨h.known, h₁, (List.append_assoc _ _ _).trans h₂, h₃⟩, rfl⟩
    | data n x =>
      simp only [hout] at hs
      obtain rfl := Option.some.inj hs
      exact ⟨⟨h.known, h₁, h₂, (List.append_assoc _ _ _).trans h₃⟩, rfl⟩

/-! ## The front of the streams -/

section Front

variable {α : Type*} {f : Operation H B → Option α} {n k : ℕ} {op : Operation H B}
  {rest : List (ℕ × Operation H B)} {x : α} {xs ys : List (ℕ × α)}

/-- The oldest call sends nothing on this stream. -/
theorem stream_skip
    (h : xs = ((n, op) :: rest).filterMap fun p => (f p.2).map fun a => (p.1, a))
    (hf : f op = none) : xs = rest.filterMap fun p => (f p.2).map fun a => (p.1, a) := by
  rwa [List.filterMap_cons, hf] at h

/-- What stands first on a stream is what the oldest call sent on it. -/
theorem stream_front
    (h : (k, x) :: xs ++ ys = ((n, op) :: rest).filterMap fun p => (f p.2).map fun a => (p.1, a))
    (hf : (f op).isSome) : k = n ∧ f op = some x ∧
      xs ++ ys = rest.filterMap fun p => (f p.2).map fun a => (p.1, a) := by
  obtain ⟨a, ha⟩ := Option.isSome_iff_exists.mp hf
  rw [List.filterMap_cons, ha] at h
  simp only [Option.map_some, List.cons_append, List.cons.injEq, Prod.mk.injEq] at h
  exact ⟨h.1.1, ha.trans (congrArg some h.1.2.symm), h.2⟩

end Front

theorem Framed.front {pending : List (ℕ × Operation H B)} (h : l.Framed pending) {n : ℕ}
    {type : SignalType} {headers : List (ℕ × SignalType)} (hh : l.headers = (n, type) :: headers) :
    ∃ op rest, pending = (n, op) :: rest ∧ op.type = type ∧ l.sent[n]? = some op ∧
      headers ++ l.outbox.filterMap Packet.header? = rest.map fun p => (p.1, p.2.type) := by
  have hheaders := h.headers
  rw [hh] at hheaders
  cases pending with
  | nil => simp at hheaders
  | cons p rest =>
    obtain ⟨m, op⟩ := p
    simp only [List.cons_append, List.map_cons, List.cons.injEq, Prod.mk.injEq] at hheaders
    obtain ⟨⟨rfl, rfl⟩, htail⟩ := hheaders
    exact ⟨op, rest, rfl, rfl, h.known _ List.mem_cons_self, htail⟩

end Link
end Damaris.Msg
