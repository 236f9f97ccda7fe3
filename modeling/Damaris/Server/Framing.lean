import Mathlib.Tactic
import Damaris.Lib.StepSystem
import Damaris.Msg.Streams
import Damaris.Server.Handlers

/-!
# Message framing

A server takes a header from a client's stream and then, inside the handler, the
body and the data that it expects. Nothing but their order ties the three
together, so a handler that returns without receiving what was sent shifts every
later message of that client.
-/
namespace Damaris.Server.Framing

open Damaris.Data Damaris.Msg

/-- What a block's data is: the client's, reached by a handle, or what was
received for it, if anything. -/
inductive Content (H B : Type*)
  | shared (h : H)
  | received (data : Option B)

/-- One header handled: the call it came from, and the calls that the body and
the data received for it came from. -/
structure Handled (C : Type*) where
  client : C
  number : ℕ
  type : SignalType
  body : Option ℕ
  data : Option ℕ

/-- Exactly what was sent with the header was received for it. -/
def Handled.Aligned {C : Type*} (e : Handled C) : Prop :=
  (e.body = if e.type.bearsBody then some e.number else none) ∧
    (e.data = if e.type = .REMOTE_WRITE then some e.number else none)

structure State (C H B : Type*) where
  links : C → Link H B
  vars : Variables (Content H B)
  handled : List (Handled C)

/-- What the server's buffer answers during one handler. `granted` is `none`
without a buffer, and otherwise whether memory is handed out for the block; it
is not for a block of size zero. -/
structure Answers where
  resolves : Bool
  granted : Option Bool

inductive Action (C H B : Type*)
  | issue (c : C) (op : Operation H B)
  | transmit (c : C)
  | handle (c : C) (answers : Answers)
  | discard (keep : ℤ → Block (Content H B) → Bool)

set_option linter.unusedSectionVars false

variable {C H B : Type*} [DecidableEq C]

def Answers.link (a : Answers) : Option (Buffer H (Content H B)) :=
  some ⟨fun _ => none, fun _ => none, fun h _ => if a.resolves then some (.shared h) else none⟩

def Answers.grant (a : Answers) : Option (ℕ → Option (Content H B)) :=
  a.granted.map fun given _ => if given then some (.received none) else none

/-- The handler for a header whose body has been received. `data` is what waits
first in the stream of data; the flag says whether it was received. -/
def dispatch (vs : Variables (Content H B)) (answers : Answers) (source : ℤ) (type : SignalType)
    (body : Body H) (data : Option B) : Option (Variables (Content H B) × Bool) :=
  match type, body with
  | .CALL_ACTION, .event _ => some (vs, false)
  | .BCAST_ACTION, .event _ => some (vs, false)
  | .WRITE, .write wr => (vs.onWrite answers.link source wr).map fun x => (x.1, false)
  | .COMMIT, .write wr => (vs.onCommit answers.link source wr).map fun vs => (vs, false)
  | .CLEAR, .clear m => (vs.onClear source m).map fun vs => (vs, false)
  | .REMOTE_WRITE, .remoteWrite rwm =>
    vs.onRemoteWrite answers.grant source rwm fun _ => .received data
  | _, _ => none

namespace State

def record (s : State C H B) (c : C) (l : Link H B) (vs : Variables (Content H B))
    (e : Handled C) : State C H B :=
  ⟨Function.update s.links c l, vs, s.handled ++ [e]⟩

/-- The end of a handler that has received its body: the data, if it gets that far. -/
def complete (s : State C H B) (c : C) (l : Link H B) (vs : Variables (Content H B)) (n : ℕ)
    (type : SignalType) (k : ℕ) : Bool → Option (State C H B)
  | false => some (s.record c l vs ⟨c, n, type, some k, none⟩)
  | true =>
    match l.datas with
    | [] => none
    | (j, _) :: datas =>
      some (s.record c { l with datas := datas } vs ⟨c, n, type, some k, some j⟩)

/-- `Server::OnHeader`. A receive blocks until its message is there, so the step
is taken only when all messages of the handler are. -/
def handle (sourceOf : C → ℤ) (s : State C H B) (c : C) (answers : Answers) :
    Option (State C H B) :=
  match (s.links c).headers with
  | [] => none
  | (n, type) :: headers =>
    let l := { s.links c with headers := headers }
    if type.bearsBody then
      match l.bodies with
      | [] => none
      | (k, body) :: bodies =>
        let l := { l with bodies := bodies }
        (dispatch s.vars answers (sourceOf c) type body (l.datas.head?.map Prod.snd)).bind
          fun x => s.complete c l x.1 n type k x.2
    else some (s.record c l s.vars ⟨c, n, type, none, none⟩)

def step (sourceOf : C → ℤ) (s : State C H B) : Action C H B → Option (State C H B)
  | .issue c op => ((s.links c).issue op).map fun l => { s with links := Function.update s.links c l }
  | .transmit c => ((s.links c).transmit).map fun l => { s with links := Function.update s.links c l }
  | .handle c answers => s.handle sourceOf c answers
  | .discard keep => some { s with vars := s.vars.discard keep }

def initial (config : ℤ → Option (Bool × Layout)) : State C H B :=
  ⟨fun _ => .new, .new config, []⟩

end State

/-! ## Where the data of a block comes from -/

/-- Data received for the block was sent by a remote write of that very block. -/
def Origin (sourceOf : C → ℤ) (links : C → Link H B) (id : ℤ) (v : Variable (Content H B))
    (b : Block (Content H B)) : Prop :=
  ∀ x, b.dataspace = some (.received x) → ∃ c rwm data, x = some data ∧
    Operation.remoteWrite rwm data ∈ (links c).sent ∧ rwm.id = id ∧
      b.key = (sourceOf c, v.normalise rwm.iteration, rwm.block)

/-- The data stored in every block is data that was sent for it. -/
def Faithful (sourceOf : C → ℤ) (links : C → Link H B) (vs : Variables (Content H B)) : Prop :=
  ∀ id v, vs id = some v → ∀ b ∈ v.blocks, Origin sourceOf links id v b

variable {sourceOf : C → ℤ} {links links' : C → Link H B} {vs vs' : Variables (Content H B)}

theorem Faithful.mono (h : Faithful sourceOf links vs)
    (hsent : ∀ c, ∀ op ∈ (links c).sent, op ∈ (links' c).sent) : Faithful sourceOf links' vs := by
  intro id v hv b hb x hx
  obtain ⟨c, rwm, data, hdata, hmem, hrest⟩ := h id v hv b hb x hx
  exact ⟨c, rwm, data, hdata, hsent c _ hmem, hrest⟩

/-- A block that keeps its key and its data keeps its origin. -/
theorem Origin.congr {id : ℤ} {v v' : Variable (Content H B)} {b b' : Block (Content H B)}
    (h : Origin sourceOf links id v b) (htv : v'.timeVarying = v.timeVarying)
    (hkey : b'.key = b.key) (hds : b'.dataspace = b.dataspace) :
    Origin sourceOf links id v' b' := by
  intro x hx
  rw [hds] at hx
  obtain ⟨c, rwm, data, hdata, hmem, hid, hk⟩ := h x hx
  refine ⟨c, rwm, data, hdata, hmem, hid, ?_⟩
  rw [hkey, hk, Variable.normalise_congr htv]

theorem Faithful.set (h : Faithful sourceOf links vs) {id : ℤ} {v v' : Variable (Content H B)}
    (hv : vs id = some v) (htv : v'.timeVarying = v.timeVarying)
    (hblocks : ∀ b ∈ v'.blocks, (∃ b₀ ∈ v.blocks, b.key = b₀.key ∧ b.dataspace = b₀.dataspace) ∨
      Origin sourceOf links id v b) : Faithful sourceOf links (vs.set id v') := by
  intro id' w hw b hb
  by_cases hid : id' = id
  · subst hid
    obtain rfl : v' = w := by simpa using hw
    rcases hblocks b hb with ⟨b₀, hb₀, hkey, hds⟩ | horigin
    · exact (h id' v hv b₀ hb₀).congr htv hkey hds
    · exact horigin.congr htv rfl rfl
  · rw [Variables.set_of_ne hid] at hw
    exact h id' w hw b hb

/-- Writing through a block's pointer without touching its data. -/
theorem Faithful.store (h : Faithful sourceOf links vs) {id : ℤ} {v v' : Variable (Content H B)}
    (hv : vs id = some v) (htv : v'.timeVarying = v.timeVarying) {b : Block (Content H B)}
    (hold : ∀ y ∈ v'.blocks, y ∈ v.blocks ∨ y = b) (hb : b ∈ v.blocks ∨ Origin sourceOf links id v b)
    {b' : Block (Content H B)} (hkey : b'.key = b.key) (hds : b'.dataspace = b.dataspace) :
    Faithful sourceOf links (vs.set id (v'.store b')) := by
  have horigin : ∀ y ∈ v'.blocks, Origin sourceOf links id v y := by
    intro y hy
    rcases hold y hy with hy | rfl
    · exact h id v hv y hy
    · exact hb.elim (h id v hv y) fun h => h
  have hborigin : Origin sourceOf links id v b := hb.elim (h id v hv b) fun h => h
  refine h.set hv htv fun y hy => .inr ?_
  rcases KeyedStore.mem_replace.mp hy with ⟨rfl, -⟩ | ⟨hy, -⟩
  · exact hborigin.congr rfl hkey hds
  · exact horigin y hy

theorem Faithful.discard (h : Faithful sourceOf links vs) (keep : ℤ → Block (Content H B) → Bool) :
    Faithful sourceOf links (vs.discard keep) := by
  intro id w hw b hb
  obtain ⟨v, hv, rfl⟩ := Option.map_eq_some_iff.mp hw
  exact (h id v hv b (KeyedStore.mem_filter.mp hb).1).congr rfl rfl rfl

/-- A block retrieved for a body shares the client's data. -/
theorem retrieve_shared {answers : Answers} {source iteration bid : ℤ} {dims : List DimBounds}
    {hd : H} {v v' : Variable (Content H B)} {r : Option (Block (Content H B))}
    (hr : v.retrieveBounds answers.link source iteration bid (bounds dims) hd = some (v', r)) :
    v'.timeVarying = v.timeVarying ∧ ∀ b ∈ v'.blocks, b ∈ v.blocks ∨
      (r = some b ∧ ∀ x, b.dataspace ≠ some (.received x)) := by
  have hadds := Variable.retrieveBounds_adds hr
  obtain ⟨w, r', hw, -, hds⟩ := Variables.retrieveBounds_message v
    (⟨fun _ => none, fun _ => none, fun h _ => if answers.resolves then some (.shared h) else none⟩ :
      Buffer H (Content H B)) source iteration bid dims hd
  obtain ⟨rfl, rfl⟩ := Prod.mk.inj (Option.some.inj (hw.symm.trans hr))
  refine ⟨hadds.timeVarying, fun b hb => ?_⟩
  cases hr' : r' with
  | none =>
    have hsame : w = v := hadds.refused hr'
    exact .inl (hsame ▸ hb)
  | some b₀ =>
    rcases (hadds.added b₀ hr' b).mp hb with hb | rfl
    · exact .inl hb
    · refine .inr ⟨rfl, fun x hx => ?_⟩
      rw [hds b hr'] at hx
      simp only at hx
      split_ifs at hx
      exact absurd (Option.some.inj hx) nofun

theorem origin_of_shared {id : ℤ} {v : Variable (Content H B)} {b : Block (Content H B)}
    (h : ∀ x, b.dataspace ≠ some (.received x)) : Origin sourceOf links id v b :=
  fun x hx => absurd hx (h x)

theorem Faithful.onWrite (h : Faithful sourceOf links vs) {answers : Answers} {source : ℤ}
    {wr : WriteMessage H} {r : Option (Block (Content H B))}
    (hw : vs.onWrite answers.link source wr = some (vs', r)) : Faithful sourceOf links vs' := by
  unfold Variables.onWrite Variables.retrieve at hw
  cases hv : vs wr.id with
  | none =>
    rw [hv] at hw
    obtain ⟨rfl, -⟩ := Prod.mk.inj (Option.some.inj hw)
    exact h
  | some v =>
    rw [hv] at hw
    obtain ⟨⟨v', r'⟩, hr, hx⟩ := Option.map_eq_some_iff.mp hw
    obtain ⟨rfl, -⟩ := Prod.mk.inj hx
    obtain ⟨htv, hblocks⟩ := retrieve_shared hr
    refine h.set hv htv fun b hb => ?_
    rcases hblocks b hb with hb | ⟨-, hb⟩
    · exact .inl ⟨b, hb, rfl, rfl⟩
    · exact .inr (origin_of_shared hb)

theorem Faithful.onCommit (h : Faithful sourceOf links vs) {answers : Answers} {source : ℤ}
    {wr : WriteMessage H} (hw : vs.onCommit answers.link source wr = some vs') :
    Faithful sourceOf links vs' := by
  unfold Variables.onCommit at hw
  cases hv : vs wr.id with
  | none =>
    rw [hv] at hw
    obtain rfl := Option.some.inj hw
    exact h
  | some v =>
    rw [hv] at hw
    simp only at hw
    rcases hr : v.retrieveBounds answers.link source wr.iteration wr.block (bounds wr.dims)
      wr.handle with _ | ⟨v', _ | b⟩
    · rw [hr] at hw
      exact absurd hw nofun
    · rw [hr] at hw
      exact absurd hw nofun
    · rw [hr] at hw
      obtain rfl := Option.some.inj hw
      have hadds := Variable.retrieveBounds_adds hr
      obtain ⟨htv, hblocks⟩ := retrieve_shared hr
      have hb : b ∈ v'.blocks := (hadds.added b rfl b).mpr (.inr rfl)
      refine h.store hv htv (fun y => (hadds.added b rfl y).mp) ?_ (Block.key_setReadOnly _ b)
        (Block.dataspace_setReadOnly _ b)
      exact (hblocks b hb).imp_right fun hb => origin_of_shared hb.2

theorem Faithful.onClear (h : Faithful sourceOf links vs) {source : ℤ} {m : ClearMessage}
    (hc : vs.onClear source m = some vs') : Faithful sourceOf links vs' := by
  unfold Variables.onClear at hc
  cases hv : vs m.id with
  | none =>
    rw [hv] at hc
    obtain rfl := Option.some.inj hc
    exact h
  | some v =>
    rw [hv] at hc
    simp only at hc
    cases hb : v.getBlock source m.iteration m.block with
    | none =>
      rw [hb] at hc
      exact absurd hc nofun
    | some b =>
      rw [hb] at hc
      obtain rfl := Option.some.inj hc
      have hmem : b ∈ v.blocks := (KeyedStore.find_eq_some.mp hb).1
      exact h.store hv rfl (fun _ hy => .inl hy) (.inl hmem) (Block.key_setReadOnly _ b)
        (Block.dataspace_setReadOnly _ b)

/-- When does a remote write get as far as receiving its data: the variable is
known, the block is not there yet and memory is granted. -/
def Accepts (vs : Variables (Content H B)) (answers : Answers) (source : ℤ)
    (rwm : RemoteWriteMessage) : Prop :=
  answers.granted = some true ∧
    ∃ v, vs rwm.id = some v ∧ v.getBlock source rwm.iteration rwm.block = none

theorem onRemoteWrite_spec (sourceOf : C → ℤ) (links : C → Link H B) {answers : Answers}
    {source : ℤ} {rwm : RemoteWriteMessage} {data : Option B} {got : Bool}
    (hw : vs.onRemoteWrite answers.grant source rwm (fun _ => .received data) = some (vs', got)) :
    (got = true ↔ Accepts vs answers source rwm) ∧
      (Faithful sourceOf links vs → (got = true → ∀ v, vs rwm.id = some v →
        ∀ b : Block (Content H B), b.key = (source, v.normalise rwm.iteration, rwm.block) →
          b.dataspace = some (.received data) → Origin sourceOf links rwm.id v b) →
        Faithful sourceOf links vs') := by
  unfold Variables.onRemoteWrite at hw
  cases hv : vs rwm.id with
  | none =>
    rw [hv] at hw
    obtain ⟨rfl, rfl⟩ := Prod.mk.inj (Option.some.inj hw)
    refine ⟨iff_of_false nofun ?_, fun h _ => h⟩
    rintro ⟨-, v, hv', -⟩
    rw [hv] at hv'
    exact absurd hv' nofun
  | some v =>
    rw [hv] at hw
    obtain ⟨⟨v', r⟩, hx, hout⟩ := Option.map_eq_some_iff.mp hw
    have hadds := Variable.allocateFixedSize_adds hx
    have haccepts : Accepts vs answers source rwm ↔
        answers.granted = some true ∧ v.getBlock source rwm.iteration rwm.block = none := by
      simp [Accepts, hv]
    obtain ⟨hfree, hds⟩ := Variables.allocateFixedSize_message v _ _ _ _ hx
    cases r with
    | none =>
      obtain ⟨rfl, rfl⟩ := Prod.mk.inj hout
      obtain rfl : v' = v := hadds.refused rfl
      refine ⟨iff_of_false nofun fun ha => ?_, fun h _ => ?_⟩
      · obtain ⟨hg, hget⟩ := haccepts.mp ha
        exact hfree.mpr ⟨by simp [Answers.grant, hg], hget⟩ rfl
      · exact h.set hv rfl fun b hb => .inl ⟨b, hb, rfl, rfl⟩
    | some b =>
      obtain ⟨-, hget⟩ := hfree.mp nofun
      obtain ⟨g, n, hg, hbn⟩ := hds b rfl
      obtain ⟨given, hgiven, rfl⟩ := Option.map_eq_some_iff.mp hg
      have hmem := hadds.added b rfl
      cases given with
      | false =>
        -- the block is there, without data
        have hnone : b.dataspace = none := hbn
        simp only [hnone] at hout
        obtain ⟨rfl, rfl⟩ := Prod.mk.inj hout
        refine ⟨iff_of_false nofun fun ha => ?_, fun h _ => ?_⟩
        · rw [haccepts, hgiven] at ha
          exact absurd (Option.some.inj ha.1) nofun
        · refine h.set hv hadds.timeVarying fun y hy => ?_
          rcases (hmem y).mp hy with hy | rfl
          · exact .inl ⟨y, hy, rfl, rfl⟩
          · exact .inr (origin_of_shared fun x hx => by simp [hnone] at hx)
      | true =>
        have hsome : b.dataspace = some (.received none) := hbn
        simp only [hsome] at hout
        obtain ⟨rfl, rfl⟩ := Prod.mk.inj hout
        refine ⟨iff_of_true rfl (haccepts.mpr ⟨hgiven, hget⟩), fun h horigin => ?_⟩
        have hkey : b.key = (source, v.normalise rwm.iteration, rwm.block) := hadds.filed b rfl
        refine h.set hv hadds.timeVarying fun y hy => ?_
        rcases KeyedStore.mem_replace.mp hy with ⟨rfl, -⟩ | ⟨hy, hne⟩
        · exact .inr (horigin rfl v rfl _ hkey rfl)
        · rcases (hmem y).mp hy with hy | rfl
          · exact .inl ⟨y, hy, rfl, rfl⟩
          · exact absurd rfl hne

theorem dispatch_of_ne (sourceOf : C → ℤ) (links : C → Link H B) {answers : Answers}
    {source : ℤ} {type : SignalType} {body : Body H} {data : Option B} {got : Bool} (htype : type ≠ .REMOTE_WRITE)
    (hd : dispatch vs answers source type body data = some (vs', got)) :
    got = false ∧ (Faithful sourceOf links vs → Faithful sourceOf links vs') := by
  unfold dispatch at hd
  split at hd
  · obtain ⟨rfl, rfl⟩ := Prod.mk.inj (Option.some.inj hd)
    exact ⟨rfl, id⟩
  · obtain ⟨rfl, rfl⟩ := Prod.mk.inj (Option.some.inj hd)
    exact ⟨rfl, id⟩
  · obtain ⟨⟨w, r⟩, hw, hx⟩ := Option.map_eq_some_iff.mp hd
    obtain ⟨rfl, rfl⟩ := Prod.mk.inj hx
    exact ⟨rfl, fun h => h.onWrite hw⟩
  · obtain ⟨w, hw, hx⟩ := Option.map_eq_some_iff.mp hd
    obtain ⟨rfl, rfl⟩ := Prod.mk.inj hx
    exact ⟨rfl, fun h => h.onCommit hw⟩
  · obtain ⟨w, hw, hx⟩ := Option.map_eq_some_iff.mp hd
    obtain ⟨rfl, rfl⟩ := Prod.mk.inj hx
    exact ⟨rfl, fun h => h.onClear hw⟩
  · exact absurd rfl htype
  · exact absurd hd nofun

/-! ## One header -/

namespace State

variable {s s' : State C H B} {c : C} {answers : Answers}

/-- What is claimed of the server at any time. -/
def Sound (sourceOf : C → ℤ) (s : State C H B) : Prop :=
  (∀ e ∈ s.handled, e.Aligned) ∧ Faithful sourceOf s.links s.vars

/-- The condition on a step: a remote write is handled only when it can be
accepted. -/
def Accepting (sourceOf : C → ℤ) (s : State C H B) : Action C H B → Prop
  | .handle c answers => ∀ n headers k rwm bodies,
      (s.links c).headers = (n, .REMOTE_WRITE) :: headers →
        (s.links c).bodies = (k, .remoteWrite rwm) :: bodies →
          Accepts s.vars answers (sourceOf c) rwm
  | _ => True

/-- Every stream holds what its client sent and the server has yet to handle. -/
def Pending (s : State C H B) : Prop := ∀ c, ∃ pending, (s.links c).Framed pending

/-- What handling one header of `c` adds to the state. -/
structure Handles (sourceOf : C → ℤ) (s : State C H B) (c : C) (s' : State C H B)
    (e : Handled C) : Prop where
  handled : s'.handled = s.handled ++ [e]
  others : ∀ c', c' ≠ c → s'.links c' = s.links c'
  sent : (s'.links c).sent = (s.links c).sent
  aligned : e.Aligned → ∃ rest, (s'.links c).Framed rest
  faithful : e.Aligned → Faithful sourceOf s.links s.vars → Faithful sourceOf s.links s'.vars

theorem handles_record {l : Link H B} {vs : Variables (Content H B)} {e : Handled C}
    (hsent : l.sent = (s.links c).sent) (hframed : e.Aligned → ∃ rest, l.Framed rest)
    (hfaithful : e.Aligned → Faithful sourceOf s.links s.vars → Faithful sourceOf s.links vs) :
    Handles sourceOf s c (s.record c l vs e) e where
  handled := rfl
  others := fun _ hne => Function.update_of_ne hne _ _
  sent := by
    simp only [record, Function.update_self]
    exact hsent
  aligned := by
    simpa only [record, Function.update_self] using hframed
  faithful := hfaithful

/-- Only a remote write is refused. -/
theorem accepting_of_ne {n : ℕ} {type : SignalType} {headers : List (ℕ × SignalType)}
    (hheaders : (s.links c).headers = (n, type) :: headers) (hne : type ≠ .REMOTE_WRITE) :
    s.Accepting sourceOf (.handle c answers) := by
  intro m hs k rwm bodies hm
  rw [hheaders] at hm
  exact absurd (Prod.mk.inj (List.cons.inj hm).1).2 hne

/-- A header without a body. -/
theorem handle_bare {n : ℕ} {op : Operation H B} {rest : List (ℕ × Operation H B)}
    {headers : List (ℕ × SignalType)} (hF : (s.links c).Framed ((n, op) :: rest))
    (hheaders : (s.links c).headers = (n, op.type) :: headers)
    (hheads : headers ++ (s.links c).outbox.filterMap Packet.header? =
      rest.map fun p => (p.1, p.2.type)) (hbears : op.type.bearsBody = false) :
    Handles sourceOf s c
        (s.record c { s.links c with headers := headers } s.vars ⟨c, n, op.type, none, none⟩)
        ⟨c, n, op.type, none, none⟩ ∧
      (Handled.Aligned (⟨c, n, op.type, none, none⟩ : Handled C) ↔
        s.Accepting sourceOf (.handle c answers)) := by
  have hne : op.type ≠ .REMOTE_WRITE := by
    intro h
    rw [h] at hbears
    exact absurd hbears (by decide)
  have hbody : op.body = none := by
    have hsome := op.body_isSome
    rwa [hbears, Option.isSome_eq_false_iff, Option.isNone_iff_eq_none] at hsome
  have hdata : op.data = none := Option.not_isSome_iff_eq_none.mp (mt op.data_isSome.mp hne)
  have hknown : ∀ p ∈ rest, (s.links c).sent[p.1]? = some p.2 :=
    fun p hp => hF.known p (List.mem_cons_of_mem _ hp)
  refine ⟨handles_record rfl (fun _ => ⟨rest, hknown, hheads, Link.stream_skip hF.bodies hbody,
    Link.stream_skip hF.datas hdata⟩) fun _ h => h, iff_of_true ?_ ?_⟩
  · simp [Handled.Aligned, hbears, hne]
  · exact accepting_of_ne hheaders hne

/-- A body that no data follows. -/
theorem handle_body {n : ℕ} {op : Operation H B} {rest : List (ℕ × Operation H B)}
    {headers : List (ℕ × SignalType)} {k : ℕ} {body : Body H} {bodies : List (ℕ × Body H)}
    {vs : Variables (Content H B)} (hF : (s.links c).Framed ((n, op) :: rest))
    (hheaders : (s.links c).headers = (n, op.type) :: headers)
    (hheads : headers ++ (s.links c).outbox.filterMap Packet.header? =
      rest.map fun p => (p.1, p.2.type)) (hbears : op.type.bearsBody = true)
    (hbodies : (s.links c).bodies = (k, body) :: bodies) (hne : op.type ≠ .REMOTE_WRITE)
    (hfaithful : Faithful sourceOf s.links s.vars → Faithful sourceOf s.links vs) :
    Handles sourceOf s c
        (s.record c { s.links c with headers := headers, bodies := bodies } vs
          ⟨c, n, op.type, some k, none⟩) ⟨c, n, op.type, some k, none⟩ ∧
      (Handled.Aligned (⟨c, n, op.type, some k, none⟩ : Handled C) ↔
        s.Accepting sourceOf (.handle c answers)) := by
  have hdata : op.data = none := Option.not_isSome_iff_eq_none.mp (mt op.data_isSome.mp hne)
  have hknown : ∀ p ∈ rest, (s.links c).sent[p.1]? = some p.2 :=
    fun p hp => hF.known p (List.mem_cons_of_mem _ hp)
  have hstream := hF.bodies
  rw [hbodies] at hstream
  obtain ⟨rfl, -, hrest⟩ := Link.stream_front hstream (op.body_isSome.trans hbears)
  refine ⟨handles_record rfl (fun _ => ⟨rest, hknown, hheads, hrest,
    Link.stream_skip hF.datas hdata⟩) fun _ h => hfaithful h, iff_of_true ?_ ?_⟩
  · simp [Handled.Aligned, hbears, hne]
  · exact accepting_of_ne hheaders hne

theorem accepting_iff {n : ℕ} {headers : List (ℕ × SignalType)} {k : ℕ} {rwm : RemoteWriteMessage}
    {bodies : List (ℕ × Body H)} (hheaders : (s.links c).headers = (n, .REMOTE_WRITE) :: headers)
    (hbodies : (s.links c).bodies = (k, .remoteWrite rwm) :: bodies) :
    s.Accepting sourceOf (.handle c answers) ↔ Accepts s.vars answers (sourceOf c) rwm := by
  constructor
  · intro h
    exact h n headers k rwm bodies hheaders hbodies
  · intro h m hs j rwm' bs hm hb
    rw [hbodies] at hb
    obtain rfl : rwm = rwm' := Body.remoteWrite.inj (Prod.mk.inj (List.cons.inj hb).1).2
    exact h

/-- A remote write: the data is received only when the block is accepted. -/
theorem handle_remoteWrite {n : ℕ} {rwm : RemoteWriteMessage} {x : B}
    {rest : List (ℕ × Operation H B)} {headers : List (ℕ × SignalType)} {k : ℕ} {body : Body H}
    {bodies : List (ℕ × Body H)} {vs : Variables (Content H B)} {got : Bool}
    (hF : (s.links c).Framed ((n, .remoteWrite rwm x) :: rest))
    (hsent : (s.links c).sent[n]? = some (.remoteWrite rwm x))
    (hheaders : (s.links c).headers = (n, .REMOTE_WRITE) :: headers)
    (hheads : headers ++ (s.links c).outbox.filterMap Packet.header? =
      rest.map fun p => (p.1, p.2.type)) (hbodies : (s.links c).bodies = (k, body) :: bodies)
    (hd : dispatch s.vars answers (sourceOf c) .REMOTE_WRITE body
      ((s.links c).datas.head?.map Prod.snd) = some (vs, got))
    (hs : s.complete c { s.links c with headers := headers, bodies := bodies } vs n .REMOTE_WRITE k
      got = some s') :
    ∃ e, Handles sourceOf s c s' e ∧ (e.Aligned ↔ s.Accepting sourceOf (.handle c answers)) := by
  have hknown : ∀ p ∈ rest, (s.links c).sent[p.1]? = some p.2 :=
    fun p hp => hF.known p (List.mem_cons_of_mem _ hp)
  have hstream := hF.bodies
  rw [hbodies] at hstream
  obtain ⟨rfl, hbody, hbodyrest⟩ := Link.stream_front hstream rfl
  obtain rfl : Body.remoteWrite rwm = body := Option.some.inj hbody
  have hspec := onRemoteWrite_spec sourceOf s.links hd
  rw [accepting_iff hheaders hbodies, ← hspec.1]
  cases got with
  | false =>
    obtain rfl := Option.some.inj hs
    have hnot : ¬ Handled.Aligned (⟨c, k, .REMOTE_WRITE, some k, none⟩ : Handled C) := by
      simp [Handled.Aligned]
    exact ⟨_, handles_record rfl (fun h => absurd h hnot) fun h => absurd h hnot,
      iff_of_false hnot nofun⟩
  | true =>
    cases hdatas : (s.links c).datas with
    | nil => simp [complete, hdatas] at hs
    | cons d datas =>
      obtain ⟨j, y⟩ := d
      have hdata := hF.datas
      rw [hdatas] at hdata
      obtain ⟨rfl, hx, hdatarest⟩ := Link.stream_front hdata rfl
      obtain rfl : x = y := Option.some.inj hx
      simp only [complete, hdatas] at hs
      obtain rfl := Option.some.inj hs
      refine ⟨_, handles_record rfl (fun _ => ⟨rest, hknown, hheads, hbodyrest, hdatarest⟩)
        fun _ h => hspec.2 h fun _ v hv b hb hds z hz => ?_, iff_of_true ?_ rfl⟩
      · rw [hdatas] at hds
        obtain rfl : some x = z := Content.received.inj (Option.some.inj (hds.symm.trans hz))
        exact ⟨c, rwm, x, rfl, List.mem_of_getElem? hsent, rfl, hb⟩
      · exact ⟨rfl, rfl⟩

theorem handle_spec (hp : s.Pending) (hs : s.handle sourceOf c answers = some s') :
    ∃ e, Handles sourceOf s c s' e ∧ (e.Aligned ↔ s.Accepting sourceOf (.handle c answers)) := by
  obtain ⟨pending, hF⟩ := hp c
  unfold handle at hs
  cases hheaders : (s.links c).headers with
  | nil => simp [hheaders] at hs
  | cons h headers =>
    obtain ⟨n, type⟩ := h
    obtain ⟨op, rest, rfl, rfl, hsent, hheads⟩ := hF.front hheaders
    rw [hheaders] at hs
    simp only at hs
    by_cases hbears : op.type.bearsBody
    · rw [if_pos hbears] at hs
      cases hbodies : (s.links c).bodies with
      | nil => simp [hbodies] at hs
      | cons b bodies =>
        obtain ⟨k, body⟩ := b
        rw [hbodies] at hs
        simp only at hs
        obtain ⟨⟨vs, got⟩, hd, hs⟩ := Option.bind_eq_some_iff.mp hs
        by_cases hne : op.type = .REMOTE_WRITE
        · obtain ⟨rwm, x, rfl⟩ : ∃ rwm x, op = .remoteWrite rwm x := by
            obtain ⟨x, hx⟩ := Option.isSome_iff_exists.mp (op.data_isSome.mpr hne)
            cases op with
            | remoteWrite rwm y => exact ⟨rwm, y, rfl⟩
            | _ => exact absurd hx nofun
          exact handle_remoteWrite hF hsent hheaders hheads hbodies hd hs
        · obtain ⟨rfl, hfaithful⟩ := dispatch_of_ne sourceOf s.links hne hd
          obtain rfl := Option.some.inj hs
          exact ⟨_, handle_body hF hheaders hheads hbears hbodies hne hfaithful⟩
    · rw [if_neg hbears] at hs
      obtain rfl := Option.some.inj hs
      exact ⟨_, handle_bare hF hheaders hheads (Bool.not_eq_true _ ▸ hbears)⟩

/-! ## Whole runs -/

theorem complete_eq {l : Link H B} {vs : Variables (Content H B)} {n : ℕ} {type : SignalType}
    {k : ℕ} {got : Bool} (hs : s.complete c l vs n type k got = some s') :
    ∃ l' e, s' = s.record c l' vs e := by
  unfold complete at hs
  split at hs
  · exact ⟨_, _, (Option.some.inj hs).symm⟩
  · split at hs
    · exact absurd hs nofun
    · exact ⟨_, _, (Option.some.inj hs).symm⟩

theorem handle_eq (hs : s.handle sourceOf c answers = some s') :
    ∃ l vs e, s' = s.record c l vs e := by
  unfold handle at hs
  split at hs
  · exact absurd hs nofun
  · simp only at hs
    split at hs
    · split at hs
      · exact absurd hs nofun
      · obtain ⟨x, -, hx⟩ := Option.bind_eq_some_iff.mp hs
        obtain ⟨l, e, rfl⟩ := complete_eq hx
        exact ⟨l, x.1, e, rfl⟩
    · exact ⟨_, _, _, (Option.some.inj hs).symm⟩

theorem handled_grows {a : Action C H B} (hs : s.step sourceOf a = some s') :
    s.handled <+: s'.handled := by
  cases a with
  | issue c op =>
    obtain ⟨l, -, rfl⟩ := Option.map_eq_some_iff.mp hs
    exact List.prefix_rfl
  | transmit c =>
    obtain ⟨l, -, rfl⟩ := Option.map_eq_some_iff.mp hs
    exact List.prefix_rfl
  | handle c answers =>
    obtain ⟨l, vs, e, rfl⟩ := handle_eq hs
    exact List.prefix_append _ _
  | discard keep =>
    obtain rfl := Option.some.inj hs
    exact List.prefix_rfl

/-- Issuing and sending touch the links only. -/
theorem update_link {l : Link H B} (hp : s.Pending) (hl : ∃ pending, l.Framed pending)
    (hsent : ∀ op ∈ (s.links c).sent, op ∈ l.sent) (hf : Faithful sourceOf s.links s.vars) :
    Pending { s with links := Function.update s.links c l } ∧
      Faithful sourceOf (Function.update s.links c l) s.vars := by
  refine ⟨fun c' => ?_, hf.mono fun c' op hop => ?_⟩
  · by_cases hc : c' = c
    · subst hc
      simpa using hl
    · simpa [hc] using hp c'
  · by_cases hc : c' = c
    · subst hc
      simpa using hsent op hop
    · simpa [hc] using hop

theorem step_sound {a : Action C H B} (hp : s.Pending) (hsound : s.Sound sourceOf)
    (ha : s.Accepting sourceOf a) (hs : s.step sourceOf a = some s') :
    s'.Pending ∧ s'.Sound sourceOf := by
  obtain ⟨haligned, hfaithful⟩ := hsound
  cases a with
  | issue c op =>
    obtain ⟨l, hl, rfl⟩ := Option.map_eq_some_iff.mp hs
    obtain ⟨pending, hF⟩ := hp c
    obtain ⟨hF', hsent⟩ := hF.issue hl
    obtain ⟨hp', hf'⟩ := update_link hp ⟨_, hF'⟩
      (fun op hop => hsent ▸ List.mem_append_left _ hop) hfaithful
    exact ⟨hp', haligned, hf'⟩
  | transmit c =>
    obtain ⟨l, hl, rfl⟩ := Option.map_eq_some_iff.mp hs
    obtain ⟨pending, hF⟩ := hp c
    obtain ⟨hF', hsent⟩ := hF.transmit hl
    obtain ⟨hp', hf'⟩ := update_link hp ⟨_, hF'⟩ (fun op hop => hsent ▸ hop) hfaithful
    exact ⟨hp', haligned, hf'⟩
  | handle c answers =>
    obtain ⟨e, he, hiff⟩ := handle_spec hp hs
    have halign := hiff.mpr ha
    have hsent : ∀ c' op, op ∈ (s.links c').sent → op ∈ (s'.links c').sent := by
      intro c' op hop
      by_cases hc : c' = c
      · subst hc
        rwa [he.sent]
      · rwa [he.others c' hc]
    refine ⟨fun c' => ?_, fun e' he' => ?_, (he.faithful halign hfaithful).mono hsent⟩
    · by_cases hc : c' = c
      · subst hc
        exact he.aligned halign
      · rw [he.others c' hc]
        exact hp c'
    · rw [he.handled] at he'
      rcases List.mem_append.mp he' with he' | he'
      · exact haligned e' he'
      · rw [List.mem_singleton.mp he']
        exact halign
  | discard keep =>
    obtain rfl := Option.some.inj hs
    exact ⟨hp, haligned, hfaithful.discard keep⟩

theorem step_misaligned {a : Action C H B} (hp : s.Pending) (ha : ¬ s.Accepting sourceOf a)
    (hs : s.step sourceOf a = some s') : ¬ ∀ e ∈ s'.handled, e.Aligned := by
  cases a with
  | handle c answers =>
    obtain ⟨e, he, hiff⟩ := handle_spec hp hs
    intro h
    exact ha (hiff.mp (h e (he.handled ▸ List.mem_append_right _ (List.mem_singleton.mpr rfl))))
  | issue c op => exact absurd trivial ha
  | transmit c => exact absurd trivial ha
  | discard keep => exact absurd trivial ha

theorem pending_initial (config : ℤ → Option (Bool × Layout)) :
    (initial config : State C H B).Pending :=
  fun _ => ⟨[], Link.framed_new⟩

theorem sound_initial (config : ℤ → Option (Bool × Layout)) :
    (initial config : State C H B).Sound sourceOf := by
  refine ⟨nofun, fun id v hv b hb => ?_⟩
  obtain ⟨x, -, rfl⟩ := Option.map_eq_some_iff.mp hv
  exact absurd hb (KeyedStore.notMem_empty b)

/-- At the end of a run everything received was sent with the header it was
received for, and all data in blocks was sent for them, if and only if each
remote write was handled at a time when it could be accepted. -/
theorem sound_iff_accepting (config : ℤ → Option (Bool × Layout)) (sourceOf : C → ℤ)
    (as : List (Action C H B)) (hr : StepSystem.run (step sourceOf) (initial config) as = some s) :
    s.Sound sourceOf ↔
      StepSystem.Guarded (step sourceOf) (Accepting sourceOf) (initial config) as := by
  have haligned := StepSystem.run_iff_guarded
    (I := fun s : State C H B => s.Pending ∧ s.Sound sourceOf) (P := fun s => ∀ e ∈ s.handled, e.Aligned)
    (fun s a s' hI ha hs => step_sound hI.1 hI.2 ha hs) (fun s hI => hI.2.1)
    (fun s a s' hI ha hs => step_misaligned hI.1 ha hs)
    (fun s a s' hs hbad hgood => hbad fun e he => hgood e ((handled_grows hs).subset he))
    ⟨pending_initial config, sound_initial config⟩ hr
  constructor
  · intro h
    exact haligned.mp h.1
  · intro hg
    exact (StepSystem.guarded_invariant (fun s a s' hI ha hs => step_sound hI.1 hI.2 ha hs)
      ⟨pending_initial config, sound_initial config⟩ hg hr).2

/-- A write of one `int` into variable 0, sent and handled. -/
def remoteWriteRun (id block : ℤ) (data : ℕ) : List (Action Unit Unit ℕ) :=
  let rwm : RemoteWriteMessage := ⟨id, 0, 0, block, [⟨0, 0, 1, (0, 0)⟩], 4⟩
  [.issue () (.remoteWrite rwm data), .transmit (), .transmit (), .transmit (),
    .handle () ⟨true, some true⟩]

theorem sound_remoteWriteRun : ∃ s : State Unit Unit ℕ,
    StepSystem.run (step fun _ => 0) (initial Variables.oneVariable) (remoteWriteRun 0 0 7) = some s ∧
      (s.Sound (fun _ => 0) ↔ StepSystem.Guarded (step fun _ => 0) (Accepting fun _ => 0)
        (initial Variables.oneVariable) (remoteWriteRun 0 0 7)) := by
  obtain ⟨s, hs⟩ := Option.isSome_iff_exists.mp (by decide :
    (StepSystem.run (step fun _ => 0) (initial Variables.oneVariable) (remoteWriteRun 0 0 7)).isSome)
  exact ⟨s, hs, sound_iff_accepting Variables.oneVariable (fun _ => 0) _ hs⟩

/-- After a write to an unknown variable the data 7 stays in the stream, and
the block of the next write gets it in place of its own 8. -/
theorem stale_data_stored : ∃ s : State Unit Unit ℕ,
    StepSystem.run (step fun _ => 0) (initial Variables.oneVariable)
        (remoteWriteRun 1 0 7 ++ remoteWriteRun 0 0 8) = some s ∧
      ¬ (∀ e ∈ s.handled, e.Aligned) ∧ ¬ Faithful (fun _ => 0) s.links s.vars := by
  obtain ⟨s, hs⟩ := Option.isSome_iff_exists.mp (by decide :
    (StepSystem.run (step fun _ => 0) (initial Variables.oneVariable)
      (remoteWriteRun 1 0 7 ++ remoteWriteRun 0 0 8)).isSome)
  have hview : (StepSystem.run (step fun _ => 0) (initial Variables.oneVariable)
      (remoteWriteRun 1 0 7 ++ remoteWriteRun 0 0 8)).map (fun s : State Unit Unit ℕ =>
        (s.handled, (s.links ()).sent, (s.vars 0).map fun v => v.blocks.elems.map Block.dataspace)) =
      some ([⟨(), 0, .REMOTE_WRITE, some 0, none⟩, ⟨(), 1, .REMOTE_WRITE, some 1, some 0⟩],
        [.remoteWrite ⟨1, 0, 0, 0, [⟨0, 0, 1, (0, 0)⟩], 4⟩ 7,
          .remoteWrite ⟨0, 0, 0, 0, [⟨0, 0, 1, (0, 0)⟩], 4⟩ 8],
        some [some (.received (some 7))]) := rfl
  rw [hs] at hview
  obtain ⟨hhandled, hview⟩ := Prod.mk.inj (Option.some.inj hview)
  obtain ⟨hsent, hblocks⟩ := Prod.mk.inj hview
  refine ⟨s, hs, fun h => ?_, fun h => ?_⟩
  · have haligned := h ⟨(), 1, .REMOTE_WRITE, some 1, some 0⟩ (by rw [hhandled]; simp)
    exact absurd haligned.2 (by decide)
  · obtain ⟨v, hv, hmap⟩ := Option.map_eq_some_iff.mp hblocks
    obtain ⟨b, hb, hds⟩ := List.mem_map.mp
      (hmap ▸ List.mem_singleton.mpr rfl : some (.received (some 7)) ∈ v.blocks.elems.map Block.dataspace)
    obtain ⟨c, rwm, data, hdata, hmem, hid, -⟩ := h 0 v hv b hb (some 7) hds
    rw [hsent] at hmem
    obtain rfl : 7 = data := Option.some.inj hdata
    rcases List.mem_pair.mp hmem with heq | heq
    · obtain ⟨rfl, -⟩ := Operation.remoteWrite.inj heq
      exact absurd hid (by decide)
    · exact absurd (Operation.remoteWrite.inj heq).2 (by decide)

end State
end Damaris.Server.Framing
