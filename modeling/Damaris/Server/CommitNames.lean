import Damaris.Server.CommitClear
import Damaris.Server.WriteRoundTrip

/-!
# The block that a commit or a clear names

A client looks a block up under the iteration of the call, and puts its own current iteration
into the message. Whether the server files, or clears, the block that the call names then
depends on the two iterations. `RemoteClient` commits by a remote write.
-/
namespace Damaris

open Data Msg

/-! ## A client's blocks -/

/-- The states of a client: after any calls, in any iteration. -/
inductive Client.Reached {A : Type*} (config : ℤ → Option (Bool × Layout)) (source numDomains : ℤ) :
    Client A → Prop
  | initial : Reached config source numDomains ⟨source, 0, numDomains, .new config, false⟩
  | request {c : Client A} (req : Request A) (h : Reached config source numDomains c) :
      Reached config source numDomains (c.request req).1
  | startNextIteration {c : Client A} (h : Reached config source numDomains c) :
      Reached config source numDomains c.startNextIteration

/-- Every block lies in a domain of the client and spans the layout. -/
def Data.Variable.Shaped {A : Type*} (numDomains : ℤ) (v : Variable A) : Prop :=
  ∀ b ∈ v.blocks, b.Spans v.layout ∧ 0 ≤ b.id ∧ b.id < numDomains

section Shaped

variable {A : Type*} {numDomains : ℤ} {v v' : Variable A}

theorem Data.Block.Spans.setReadOnly {l : Layout} {b : Block A} (h : b.Spans l) (ro : Bool) :
    (b.setReadOnly ro).Spans l := by
  unfold Block.setReadOnly
  split
  · exact h
  · exact ⟨h.lower, h.upper, h.globalDims, h.ghosts, h.extents⟩

theorem Data.Variable.Shaped.adds (h : v.Shaped numDomains) {key : ℤ × ℤ × ℤ} {r : Option (Block A)}
    (hadds : v.Adds key v' r)
    (hr : ∀ b, r = some b → b.Spans v.layout ∧ 0 ≤ b.id ∧ b.id < numDomains) :
    v'.Shaped numDomains := by
  intro b hb
  rw [hadds.layout]
  cases hcase : r with
  | none =>
    rw [hadds.refused hcase] at hb
    exact h b hb
  | some c =>
    rcases (hadds.added c hcase b).mp hb with hold | rfl
    · exact h b hold
    · exact hr b hcase

theorem Data.Variable.Shaped.shrinks (h : v.Shaped numDomains) (hs : v.Shrinks v')
    (hlayout : v'.layout = v.layout) : v'.Shaped numDomains := fun b hb =>
  hlayout ▸ h b (hs.2 b hb)

theorem Data.Variable.Shaped.store (h : v.Shaped numDomains) {b : Block A} (hb : b ∈ v.blocks)
    (ro : Bool) : (v.store (b.setReadOnly ro)).Shaped numDomains := by
  intro c hc
  rcases KeyedStore.mem_replace.mp hc with ⟨rfl, -⟩ | ⟨hc, -⟩
  · have hid : (b.setReadOnly ro).id = b.id := by
      unfold Block.setReadOnly
      split <;> rfl
    rw [hid]
    exact ⟨(h b hb).1.setReadOnly ro, (h b hb).2⟩
  · exact h c hc

/-- `Allocate` makes a block of the variable's shape. -/
theorem Data.Variable.allocate_shaped {H : Type*} (v : Variable A) (buffer : Option (Buffer H A))
    (source iteration bid : ℤ) {b : Block A}
    (h : (v.allocate buffer source iteration bid).2 = some b) : b.Spans v.layout ∧ b.id = bid := by
  cases buffer with
  | none => exact absurd h.symm (Option.some_ne_none b)
  | some buffer =>
    have hadds := v.allocate_adds (some buffer) source iteration bid
    have hkey := hadds.filed b h
    refine ⟨?_, congrArg (fun k => k.2.2) hkey⟩
    rw [v.allocate_eq] at h
    by_cases hget : (v.getBlock source iteration bid).isSome
    · rw [if_pos hget] at h
      exact absurd h.symm (Option.some_ne_none b)
    · rw [if_neg hget] at h
      cases hds : buffer.allocate v.layout.requiredMemory with
      | none =>
        rw [hds] at h
        exact absurd h.symm (Option.some_ne_none b)
      | some ds =>
        rw [hds] at h
        obtain rfl := Option.some.inj h
        exact v.spans_blockOf ..

end Shaped

namespace Client

variable {A : Type*} {config : ℤ → Option (Bool × Layout)} {source numDomains : ℤ} {c c' : Client A}
  {id block : ℤ}

/-- The client's variables are as configured, and their blocks of the right shape. -/
structure Shaped (config : ℤ → Option (Bool × Layout)) (c : Client A) : Prop where
  configured : c.vars.Configured config
  stored : ∀ id v, c.vars id = some v → v.Shaped c.numDomains

theorem search_valid {v : Variable A} (h : c.search id block = .ok v) :
    0 ≤ block ∧ block < c.numDomains := by
  unfold search at h
  split at h
  · exact absurd h (by simp)
  · split_ifs at h with hvalid
    omega

theorem Shaped.set (h : c.Shaped config) {v v' : Variable A} (hv : c.vars id = some v)
    (htv : v'.timeVarying = v.timeVarying) (hlayout : v'.layout = v.layout)
    (hshaped : v'.Shaped c.numDomains) (hvars : c'.vars = c.vars.set id v')
    (hn : c'.numDomains = c.numDomains) : c'.Shaped config := by
  refine ⟨hvars ▸ h.configured.set hv htv hlayout, fun id' w hw => ?_⟩
  rw [hvars] at hw
  rw [hn]
  by_cases hid : id' = id
  · subst hid
    obtain rfl := Option.some.inj ((Variables.set_same ..).symm.trans hw)
    exact hshaped
  · rw [Variables.set_of_ne hid] at hw
    exact h.stored id' w hw

theorem Shaped.write (h : c.Shaped config) (buffer : Option (Buffer Unit A)) :
    (c.write id block buffer).1.Shaped config := by
  unfold Client.write
  cases hs : c.search id block with
  | error e => exact h
  | ok v =>
    have hv := search_ok hs
    have hadds := v.allocate_adds buffer c.source c.iteration block
    have hshaped := (h.stored id v hv).adds hadds fun b hb => by
      obtain ⟨hspans, hid⟩ := v.allocate_shaped buffer c.source c.iteration block hb
      exact ⟨hspans, hid ▸ search_valid hs⟩
    simp only
    rcases hcall : v.allocate buffer c.source c.iteration block with ⟨v', _ | b⟩ <;>
      rw [hcall] at hadds hshaped
    · exact h.set hv hadds.timeVarying hadds.layout hshaped rfl rfl
    · have hshrinks := v'.detachBlock_shrinks (some b)
      have hlayout := v'.layout_detachBlock (some b)
      simp only
      split <;>
        exact h.set hv (hshrinks.1.trans hadds.timeVarying) (hlayout.trans hadds.layout)
          (hshaped.shrinks hshrinks hlayout) rfl rfl

theorem Shaped.alloc (h : c.Shaped config) (buffer : Option (Buffer Unit A)) :
    (c.alloc id block buffer).1.Shaped config := by
  unfold Client.alloc
  cases hs : c.search id block with
  | error e => exact h
  | ok v =>
    have hv := search_ok hs
    have hadds := v.allocateAligned_adds buffer c.source c.iteration block
    have hshaped := (h.stored id v hv).adds hadds fun b hb => by
      have hmade : b.Spans v.layout ∧ b.id = block := by
        cases buffer with
        | none => exact absurd hb.symm (Option.some_ne_none b)
        | some buffer =>
          exact v.allocate_shaped (some { buffer with allocate := buffer.allocateAligned })
            c.source c.iteration block hb
      exact ⟨hmade.1, hmade.2 ▸ search_valid hs⟩
    simp only
    rcases hcall : v.allocateAligned buffer c.source c.iteration block with ⟨v', _ | b⟩ <;>
      rw [hcall] at hadds hshaped <;>
      exact h.set hv hadds.timeVarying hadds.layout hshaped rfl rfl

theorem Shaped.commit (h : c.Shaped config) (iteration : ℤ) :
    (c.commit id block iteration).1.Shaped config := by
  obtain ⟨hsame, -⟩ | ⟨v, b, hv, hb, hcommit⟩ := c.commit_cases id block iteration
  · rw [hsame]
    exact h
  · rw [hcommit]
    have hshaped := (h.stored id v hv).store hb true
    refine h.set hv ?_ ?_ hshaped rfl rfl <;> rfl

theorem Shaped.clear (h : c.Shaped config) (iteration : ℤ) :
    (c.clear id block iteration).1.Shaped config := by
  obtain hsame | ⟨v, b, hv, hb, hclear⟩ := c.clear_cases id block iteration
  · rw [hsame]
    exact h
  · rw [hclear]
    have hshrinks := (v.store (b.setReadOnly false)).detachBlock_shrinks
      (some (b.setReadOnly false))
    have hlayout := (v.store (b.setReadOnly false)).layout_detachBlock (some (b.setReadOnly false))
    exact h.set hv hshrinks.1 hlayout
      (((h.stored id v hv).store hb false).shrinks hshrinks hlayout) rfl rfl

theorem Shaped.setPosition (h : c.Shaped config) (p : List ℤ) :
    (c.setPosition id block p).1.Shaped config := by
  unfold Client.setPosition
  cases hs : c.search id block with
  | error e => exact h
  | ok v =>
    have hv := search_ok hs
    refine h.set hv ?_ ?_ ?_ rfl rfl <;> simp only [Variable.setPosition] <;> split
    · rfl
    · rfl
    · rfl
    · rfl
    · exact h.stored id v hv
    · exact h.stored id v hv

theorem Reached.shaped (h : c.Reached config source numDomains) : c.Shaped config := by
  induction h with
  | initial =>
    refine ⟨Variables.configured_new config, fun id v hv b hb => ?_⟩
    exact absurd ⟨v, hv, hb⟩ Variables.not_stores_new
  | request req _ ih =>
    cases req with
    | connect => exact ih
    | stop => exact ih
    | signal bcast id => exact ih
    | write id block buffer => exact ih.write buffer
    | alloc id block buffer => exact ih.alloc buffer
    | commit id block iteration => exact ih.commit iteration
    | clear id block iteration => exact ih.clear iteration
    | setPosition id block p => exact ih.setPosition p
  | startNextIteration _ ih => exact ⟨ih.configured, ih.stored⟩

/-- `RemoteClient::Commit`. `size` is what `GetSize` answers for a dataspace. -/
def remoteCommit (c : Client A) (size : Option A → ℕ) (id block iteration : ℤ) :
    Client A × Status × Option RemoteWriteMessage :=
  match c.search id block with
  | .error e => (c, e, none)
  | .ok v =>
    match v.getBlock c.source iteration block with
    | none => (c, .BLOCK_NOT_FOUND, none)
    | some b =>
      ({ c with vars := c.vars.set id (v.store (b.setReadOnly true)) }, .OK, some
        { id := id, source := c.source, iteration := c.iteration, block := block,
          dims := dimsOf v.layout.dimensions b, size := size b.dataspace })

end Client

/-! ## A server's blocks -/

/-- The blocks of two memories have the same bounds. -/
structure Data.Block.SameBounds {A D : Type*} (x : Block D) (b : Block A) : Prop where
  lower : x.lowerBounds = b.lowerBounds
  upper : x.upperBounds = b.upperBounds
  globalDims : x.globalDims = b.globalDims
  ghosts : x.ghosts = b.ghosts

namespace Variables

variable {A D : Type*} {vs vs' : Variables D} {id : ℤ} {key : ℤ × ℤ × ℤ} {b : Block A}

def blockAt (vs : Variables D) (id : ℤ) (key : ℤ × ℤ × ℤ) : Option (Block D) :=
  (vs id).bind fun w => w.blocks.find key

/-- A block with this key and the bounds of `b` is there. -/
def Holds (vs : Variables D) (id : ℤ) (key : ℤ × ℤ × ℤ) (b : Block A) : Prop :=
  ∃ x, vs.blockAt id key = some x ∧ x.SameBounds b

/-- The block that `OnClear` gains the data of. -/
def cleared (vs : Variables D) (source : ℤ) (m : ClearMessage) : Option (Block D) :=
  (vs m.id).bind fun v => v.getBlock source m.iteration m.block

theorem onClear_eq {source : ℤ} {m : ClearMessage} {v : Variable D} (hv : vs m.id = some v) :
    vs.onClear source m =
      (vs.cleared source m).map fun b => vs.set m.id (v.store (b.setReadOnly false)) := by
  simp only [onClear, cleared, hv, Option.bind_some]
  cases v.getBlock source m.iteration m.block <;> rfl

/-- A handler that files one block. -/
theorem holds_set {w w' : Variable D} {k : ℤ × ℤ × ℤ} {y : Block D} (hw : vs id = some w)
    (hadds : w.Adds k w' (some y)) (hy : y.SameBounds b) :
    (vs.set id w').Holds id key b ↔ key = k ∨ vs.Holds id key b := by
  have hfree : w.blocks.find y.key = none := by
    rw [hadds.filed y rfl]
    exact hadds.free (Option.some_ne_none y)
  have hfind := KeyedStore.find_of_added (hadds.added y rfl) hfree key
  rw [hadds.filed y rfl] at hfind
  simp only [Holds, blockAt, set_same, hw, Option.bind_some, hfind]
  by_cases hk : key = k
  · rw [if_pos hk]
    exact iff_of_true ⟨y, rfl, hy⟩ (.inl hk)
  · rw [if_neg hk]
    exact (or_iff_right hk).symm

end Variables

theorem Data.Block.SameBounds.setReadOnly {A D : Type*} {x : Block D} {b : Block A}
    (h : x.SameBounds b) (ro : Bool) : (x.setReadOnly ro).SameBounds b := by
  unfold Block.setReadOnly
  split
  · exact h
  · exact ⟨h.lower, h.upper, h.globalDims, h.ghosts⟩

/-- With the bounds of a client's block, `AllocateFixedSize` makes a block of the same bounds. -/
theorem Data.Variable.allocateFixedSize_dimsOf {A D H : Type*} {w w' : Variable D}
    {buffer : Option (Buffer H D)} {source iteration bid : ℤ} {b : Block A} {y : Block D}
    (hspans : b.Spans w.layout) (hglobal : ∀ d ∈ w.layout.along, d.global < 2 ^ 64)
    (h : w.allocateFixedSize buffer source iteration bid
      (bounds (dimsOf w.layout.dimensions b)) = some (w', some y)) : y.SameBounds b := by
  unfold allocateFixedSize at h
  split_ifs at h
  have hset := setBounds_dimsOf hspans hglobal
    (Block.new source (w.normalise iteration) bid w.layout : Block D)
  unfold allocateWith at h
  cases buffer with
  | none => simp at h
  | some buffer =>
    simp only [Option.map_some, hset] at h
    split_ifs at h
    · simp at h
    · split at h
      · simp at h
      · simp only [Option.some.injEq, Prod.mk.injEq] at h
        obtain ⟨-, rfl⟩ := h
        exact ⟨rfl, rfl, rfl, rfl⟩

/-- Two sides with one configuration have the same variables. -/
theorem Variables.Configured.counterpart {A D : Type*} {config : ℤ → Option (Bool × Layout)}
    {vs : Variables A} {vs' : Variables D} (h : vs.Configured config) (h' : vs'.Configured config)
    {id : ℤ} {v : Variable A} (hv : vs id = some v) :
    ∃ w, vs' id = some w ∧ w.timeVarying = v.timeVarying ∧ w.layout = v.layout := by
  have hconf := h' id
  rw [← h id, hv, Option.map_some, Option.map_eq_some_iff] at hconf
  obtain ⟨w, hw, he⟩ := hconf
  exact ⟨w, hw, congrArg Prod.fst he, congrArg Prod.snd he⟩

/-! ## What becomes of the block -/

section Names

variable {A D : Type*} {config : ℤ → Option (Bool × Layout)} {source numDomains : ℤ} {c : Client A}
  {id block it : ℤ} {v : Variable A} {b : Block A}

theorem Data.Variable.normalise_eq_iff {v : Variable A} {i j : ℤ} :
    v.normalise i = v.normalise j ↔ (v.timeVarying = true → i = j) := by
  unfold Variable.normalise
  cases v.timeVarying <;> simp

/-- A call names the block of the current iteration, unless the variable varies and the iteration
is another one. -/
theorem key_current_iff : (c.source, v.normalise it, block) =
    (c.source, v.normalise c.iteration, block) ↔ (v.timeVarying = true → it = c.iteration) := by
  simp [Variable.normalise_eq_iff]

theorem Client.Reached.search (hc : c.Reached config source numDomains) (hv : c.vars id = some v)
    (hb : v.getBlock c.source it block = some b) : c.search id block = .ok v := by
  obtain ⟨hmem, hkey⟩ := KeyedStore.find_eq_some.mp hb
  obtain ⟨-, hle, hlt⟩ := hc.shaped.stored id v hv b hmem
  have hid : b.id = block := congrArg (fun k => k.2.2) hkey
  unfold Client.search
  rw [hv]
  exact if_neg (by omega)

variable (c id block it v b)

/-- After the message of `Commit`, the server holds the block. -/
def Client.CommitNames (vs : Variables A) : Prop :=
  ∃ wr vs', (c.commit id block it).2.2 = some wr ∧ vs.onCommit (some shared) c.source wr = some vs' ∧
    vs'.Holds id (c.source, v.normalise it, block) b

/-- After the messages of `RemoteClient::Commit`, the server holds the block. -/
def Client.RemoteCommitNames (size : Option A → ℕ) (granted : Option (ℕ → Option D)) (recv : D → D)
    (vs : Variables D) : Prop :=
  ∃ rwm x, (c.remoteCommit size id block it).2.2 = some rwm ∧
    vs.onRemoteWrite granted c.source rwm recv = some x ∧
      x.1.Holds id (c.source, v.normalise it, block) b

/-- With the message of `Clear`, the server gains the data of the block. -/
def Client.ClearNames (vs : Variables D) : Prop :=
  ∃ m x, (c.clear id block it).2.2 = some m ∧ (vs.onClear c.source m).isSome ∧
    vs.cleared c.source m = some x ∧ x.key = (c.source, v.normalise it, block)

variable {c id block it v b}

theorem clearNames_iff (hc : c.Reached config source numDomains) (hv : c.vars id = some v)
    (hb : v.getBlock c.source it block = some b) {vs : Variables D} (hvs : vs.Configured config) :
    c.ClearNames id block it v vs ↔
      vs.blockAt id (c.source, v.normalise c.iteration, block) ≠ none ∧
        (v.timeVarying = true → it = c.iteration) := by
  obtain ⟨w, hw, htv, -⟩ := hc.shaped.configured.counterpart hvs hv
  have hsent : (c.clear id block it).2.2 =
      some { id := id, source := c.source, iteration := c.iteration, block := block } := by
    simp only [Client.clear, hc.search hv hb, hb]
  have hnorm : w.normalise c.iteration = v.normalise c.iteration := Variable.normalise_congr htv _
  have hcleared : vs.cleared c.source
      { id := id, source := c.source, iteration := c.iteration, block := block } =
      vs.blockAt id (c.source, v.normalise c.iteration, block) := by
    simp only [Variables.cleared, Variables.blockAt, hw, Option.bind_some, Variable.getBlock, hnorm]
  rw [← Variable.normalise_eq_iff]
  constructor
  · rintro ⟨m, x, hm, -, hx, hkey⟩
    obtain rfl := Option.some.inj (hsent.symm.trans hm)
    rw [hcleared] at hx
    have hx' := hx
    rw [Variables.blockAt, hw, Option.bind_some] at hx'
    have hcurrent := hkey.symm.trans (KeyedStore.find_eq_some.mp hx').2
    exact ⟨fun hnone => absurd (hnone.symm.trans hx) (Option.some_ne_none x).symm,
      congrArg (fun k => k.2.1) hcurrent⟩
  · rintro ⟨hthere, hsame⟩
    obtain ⟨x, hx⟩ := Option.ne_none_iff_exists'.mp hthere
    have hx' := hx
    rw [Variables.blockAt, hw, Option.bind_some] at hx'
    refine ⟨_, x, hsent, ?_, hcleared.trans hx, ?_⟩
    · rw [Variables.onClear_eq hw, hcleared, hx]
      rfl
    · rw [hsame]
      exact (KeyedStore.find_eq_some.mp hx').2

theorem Data.Variable.blockAt_eq {vs : Variables D} {w : Variable D} (hw : vs id = some w)
    (source i bid : ℤ) : vs.blockAt id (source, w.normalise i, bid) = w.getBlock source i bid := by
  rw [Variables.blockAt, hw]
  rfl

/-- A commit of a block without data, or under a key that is taken, dereferences a null block. -/
theorem onCommit_null {vs : Variables A} {wr : WriteMessage (Option A)} {w : Variable A} {source : ℤ}
    (hw : vs wr.id = some w)
    (h : wr.handle = none ∨ w.getBlock source wr.iteration wr.block ≠ none) :
    vs.onCommit (some shared) source wr = none := by
  obtain ⟨w', r, hret, hr, -⟩ :=
    Variables.retrieveBounds_message w shared source wr.iteration wr.block wr.dims wr.handle
  have hnone : r = none := by
    by_contra hne
    obtain ⟨-, hfree, hlink⟩ := hr.mp hne
    exact h.elim hlink fun hget => hget hfree
  simp only [Variables.onCommit, hw, hret, hnone]

/-- Otherwise it files a block with the bounds of the client's. -/
theorem onCommit_files {vs : Variables A} {w : Variable A} (hw : vs id = some w)
    (hspans : b.Spans w.layout) (hglobal : ∀ d ∈ w.layout.along, d.global < 2 ^ 64)
    {source iteration : ℤ} (hkey : b.source = source ∧ b.id = block) {a : A}
    (hds : b.dataspace = some a) (hfree : w.getBlock source iteration block = none) :
    ∃ w' y, vs.onCommit (some shared) source
        { id := id, source := source, iteration := iteration, block := block,
          dims := dimsOf w.layout.dimensions b, handle := b.dataspace } = some (vs.set id w') ∧
      w.Adds (source, w.normalise iteration, block) w' (some y) ∧
        y.SameBounds b := by
  set b₀ : Block A := { b with iteration := w.normalise iteration, readOnly := false } with hb₀
  have hspans₀ : b₀.Spans w.layout :=
    ⟨hspans.lower, hspans.upper, hspans.globalDims, hspans.ghosts, hspans.extents⟩
  have hdims : dimsOf w.layout.dimensions b = dimsOf w.layout.dimensions b₀ := rfl
  have hret : w.retrieveBounds (some shared) source iteration block
      (bounds (dimsOf w.layout.dimensions b₀)) (some a) = _ :=
    retrieveBounds_dimsOf hspans₀ hglobal (by rw [hb₀, Block.key, hkey.1, hkey.2]) rfl hds rfl
  rw [if_neg (by simp [hfree])] at hret
  have hadds := (Variable.retrieveBounds_adds hret).store (Block.key_setReadOnly true b₀)
  have hsame : b₀.SameBounds b := ⟨rfl, rfl, rfl, rfl⟩
  refine ⟨_, _, ?_, hadds, hsame.setReadOnly true⟩
  simp only [Variables.onCommit, hw, hds, hdims, hret]

theorem commitNames_iff (hc : c.Reached config source numDomains) (hv : c.vars id = some v)
    (hb : v.getBlock c.source it block = some b) {vs : Variables A} (hvs : vs.Configured config)
    (hglobal : ∀ d ∈ v.layout.along, d.global < 2 ^ 64) :
    c.CommitNames id block it v b vs ↔
      b.dataspace ≠ none ∧ vs.blockAt id (c.source, v.normalise c.iteration, block) = none ∧
        ((v.timeVarying = true → it = c.iteration) ∨
          vs.Holds id (c.source, v.normalise it, block) b) := by
  obtain ⟨w, hw, htv, hlayout⟩ := hc.shaped.configured.counterpart hvs hv
  obtain ⟨hmem, hkey⟩ := KeyedStore.find_eq_some.mp hb
  have hsent : (c.commit id block it).2.2 = some
      { id := id, source := c.source, iteration := c.iteration, block := block,
        dims := dimsOf w.layout.dimensions b, handle := b.dataspace } := by
    simp only [Client.commit, hc.search hv hb, hb, hlayout]
  have hnorm : ∀ i, w.normalise i = v.normalise i := Variable.normalise_congr htv
  have hat := Data.Variable.blockAt_eq hw c.source c.iteration block
  rw [hnorm] at hat
  rw [hat]
  cases hds : b.dataspace with
  | none =>
    refine iff_of_false ?_ fun h => h.1 rfl
    rintro ⟨wr, vs', hwr, hcommit, -⟩
    obtain rfl := Option.some.inj (hsent.symm.trans hwr)
    exact absurd ((onCommit_null hw (.inl hds)).symm.trans hcommit) (Option.some_ne_none vs').symm
  | some a =>
    cases hget : w.getBlock c.source c.iteration block with
    | some x =>
      refine iff_of_false ?_ fun h => absurd h.2.1 (Option.some_ne_none x)
      rintro ⟨wr, vs', hwr, hcommit, -⟩
      obtain rfl := Option.some.inj (hsent.symm.trans hwr)
      have hne : w.getBlock c.source c.iteration block ≠ none := by rw [hget]; exact Option.some_ne_none x
      exact absurd ((onCommit_null hw (.inr hne)).symm.trans hcommit) (Option.some_ne_none vs').symm
    | none =>
      have hspans : b.Spans w.layout := hlayout ▸ (hc.shaped.stored id v hv b hmem).1
      obtain ⟨w', y, hcommit, hadds, hy⟩ := onCommit_files hw hspans (hlayout ▸ hglobal)
        ⟨congrArg Prod.fst hkey, congrArg (fun k => k.2.2) hkey⟩ hds hget
      have hholds : (vs.set id w').Holds id (c.source, v.normalise it, block) b ↔ _ :=
        Variables.holds_set hw hadds hy
      rw [hnorm] at hholds
      rw [key_current_iff] at hholds
      constructor
      · rintro ⟨wr, vs', hwr, hvs', hthere⟩
        obtain rfl := Option.some.inj (hsent.symm.trans hwr)
        obtain rfl := Option.some.inj (hcommit.symm.trans hvs')
        exact ⟨Option.some_ne_none a, rfl, hholds.mp hthere⟩
      · rintro ⟨-, -, hthere⟩
        exact ⟨_, _, hsent, hcommit, hholds.mpr hthere⟩

/-- What a remote commit leaves: the block under its key if that is free, else nothing new. -/
theorem onRemoteWrite_files (block : ℤ) {vs : Variables D} {w : Variable D} (hw : vs id = some w)
    (hspans : b.Spans w.layout) (hglobal : ∀ d ∈ w.layout.along, d.global < 2 ^ 64)
    {source iteration : ℤ} {n : ℕ} (granted : Option (ℕ → Option D)) (recv : D → D) :
    ∃ x, vs.onRemoteWrite granted source
        { id := id, source := source, iteration := iteration, block := block,
          dims := dimsOf w.layout.dimensions b, size := n } recv = some x ∧
      if granted ≠ none ∧ w.getBlock source iteration block = none then
        ∃ w' y, x.1 = vs.set id w' ∧ w.Adds (source, w.normalise iteration, block) w' (some y) ∧
          y.SameBounds b
      else x.1 = vs.set id w := by
  have hcovers : (bounds (dimsOf w.layout.dimensions b)).Covers w.layout.dimensions := by
    have hcov := covers_bounds (dimsOf w.layout.dimensions b)
    rwa [length_dimsOf] at hcov
  obtain ⟨x, hx⟩ : ∃ x, w.allocateFixedSize (granted.map fun g =>
      (⟨fun n => some (g n), fun n => some (g n), fun _ _ => none⟩ : Buffer Unit D)) source iteration
      block (bounds (dimsOf w.layout.dimensions b)) = some x := by
    unfold Variable.allocateFixedSize
    rw [if_pos (.inr (.inr hcovers))]
    exact ⟨_, rfl⟩
  have hadds := Variable.allocateFixedSize_adds hx
  have hgranted := (Variables.allocateFixedSize_message w granted source iteration block hx).1
  obtain ⟨w', r⟩ := x
  simp only [Variables.onRemoteWrite, hw, hx, Option.map_some]
  cases r with
  | none =>
    refine ⟨_, rfl, ?_⟩
    rw [if_neg fun h => hgranted.mpr h rfl, ← hadds.refused rfl]
  | some y =>
    have hy := Variable.allocateFixedSize_dimsOf hspans hglobal hx
    have hboth := hgranted.mp (Option.some_ne_none y)
    cases hds : y.dataspace with
    | none =>
      refine ⟨(vs.set id w', false), by simp only [hds], ?_⟩
      rw [if_pos hboth]
      exact ⟨w', y, rfl, hadds, hy⟩
    | some d =>
      refine ⟨(vs.set id (w'.store (y.setDataSpace (some (recv d)))), true), by simp only [hds], ?_⟩
      rw [if_pos hboth]
      exact ⟨_, _, rfl, hadds.store (Block.key_setDataSpace (some (recv d)) y),
        hy.lower, hy.upper, hy.globalDims, hy.ghosts⟩

theorem remoteCommitNames_iff (hc : c.Reached config source numDomains) (hv : c.vars id = some v)
    (hb : v.getBlock c.source it block = some b) {vs : Variables D} (hvs : vs.Configured config)
    (hglobal : ∀ d ∈ v.layout.along, d.global < 2 ^ 64) (size : Option A → ℕ)
    (granted : Option (ℕ → Option D)) (recv : D → D) :
    c.RemoteCommitNames id block it v b size granted recv vs ↔
      (granted ≠ none ∧ vs.blockAt id (c.source, v.normalise c.iteration, block) = none ∧
        (v.timeVarying = true → it = c.iteration)) ∨
      vs.Holds id (c.source, v.normalise it, block) b := by
  obtain ⟨w, hw, htv, hlayout⟩ := hc.shaped.configured.counterpart hvs hv
  obtain ⟨hmem, -⟩ := KeyedStore.find_eq_some.mp hb
  have hspans : b.Spans w.layout := hlayout ▸ (hc.shaped.stored id v hv b hmem).1
  have hsent : (c.remoteCommit size id block it).2.2 = some
      { id := id, source := c.source, iteration := c.iteration, block := block,
        dims := dimsOf w.layout.dimensions b, size := size b.dataspace } := by
    simp only [Client.remoteCommit, hc.search hv hb, hb, hlayout]
  have hnorm : ∀ i, w.normalise i = v.normalise i := Variable.normalise_congr htv
  have hat := Data.Variable.blockAt_eq hw c.source c.iteration block
  rw [hnorm] at hat
  obtain ⟨x, hwrite, hx⟩ := onRemoteWrite_files block hw hspans (hlayout ▸ hglobal)
    granted recv
  have hnames : c.RemoteCommitNames id block it v b size granted recv vs ↔
      x.1.Holds id (c.source, v.normalise it, block) b := by
    constructor
    · rintro ⟨rwm, x', hrwm, hx', hthere⟩
      obtain rfl := Option.some.inj (hsent.symm.trans hrwm)
      obtain rfl := Option.some.inj (hwrite.symm.trans hx')
      exact hthere
    · exact fun hthere => ⟨_, x, hsent, hwrite, hthere⟩
  rw [hnames, hat]
  by_cases hfiled : granted ≠ none ∧ w.getBlock c.source c.iteration block = none
  · rw [if_pos hfiled] at hx
    obtain ⟨w', y, he, hadds, hy⟩ := hx
    rw [hnorm] at hadds
    rw [he, Variables.holds_set hw hadds hy, key_current_iff, ← and_assoc, and_iff_right hfiled]
  · rw [if_neg hfiled] at hx
    have hsame : vs.set id w = vs := by rw [Variables.set, ← hw, Function.update_eq_self]
    rw [hx, hsame, ← and_assoc]
    exact (or_iff_right fun h => hfiled h.1).symm

/-- A client that has a block of iteration 0 and is in iteration 1. -/
def lateClient : Client Unit :=
  Client.startNextIteration (Client.request ⟨0, 0, 1, .new Variables.oneVariable, false⟩ (.alloc 0 0
    (some ⟨fun _ => some (some ()), fun _ => some (some ()), fun _ _ => none⟩))).1

theorem lateClient_reached : lateClient.Reached Variables.oneVariable 0 1 :=
  .startNextIteration (.request _ .initial)

end Names
end Damaris
