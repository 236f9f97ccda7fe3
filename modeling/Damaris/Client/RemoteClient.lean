import Damaris.Server.CommitNames

/-!
# `RemoteClient::Write`

A client without shared memory sends its data to the server. It has no block to
read the bounds from, and makes them of the layout and the position that was
set for the domain.
-/
namespace Damaris

open Data Msg

/-- The value an `int64_t` holds. -/
def toLong (x : ℤ) : ℤ := Int.bmod x (2 ^ 64)

/-- The bounds as the `int64_t` fields of a message hold them. -/
def Msg.DimBounds.inLong (d : DimBounds) : DimBounds :=
  { d with ubound := toLong d.ubound, gbound := toLong d.gbound }

/-- `GetPositions`: `operator[]` files an empty position for a domain that has none. -/
def Data.Variable.getPositions {D : Type*} (v : Variable D) (bid : ℤ) : Variable D × List ℤ :=
  match v.positions bid with
  | some p => (v, p)
  | none => ({ v with positions := Function.update v.positions bid (some []) }, [])

/-- What `InterpretDimensions` leaves of a layout's number of dimensions: all of it. -/
def Data.Variable.notify {D : Type*} (v : Variable D) (l : Layout) : Option (Variable D) :=
  if l.dimensions = v.layout.dimensions then some { v with layout := l } else none

namespace RemoteClient

variable {A : Type*}

/-- One round of the loop that fills the message. -/
def dimBounds (d : Dimension) (p : ℤ) : DimBounds :=
  { ubound := toLong (d.extent - 1 + p), lbound := p, gbound := toLong d.global, ghost := d.ghost }

/-- `RemoteClient::Write`. The loop reads the position up to the number of dimensions;
`none` is a read past its end. -/
def write (c : Client A) (id block : ℤ) : Option (Client A × Status × Option RemoteWriteMessage) :=
  match c.search id block with
  | .error e => some (c, e, none)
  | .ok v =>
    let p := v.getPositions block
    if v.layout.dimensions ≤ p.2.length then
      some ({ c with vars := c.vars.set id p.1 }, .OK, some
        { id := id, source := c.source, iteration := c.iteration, block := block,
          dims := List.zipWith dimBounds v.layout.along p.2, size := v.layout.requiredMemory })
    else none

/-- The client is used from its configuration on: by any calls, remote writes among them, and
with layouts that are interpreted again when a parameter changes. -/
inductive Reached (config : ℤ → Option (Bool × Layout)) (source numDomains : ℤ) : Client A → Prop
  | initial : Reached config source numDomains ⟨source, 0, numDomains, .new config, false⟩
  | request {c : Client A} (req : Client.Request A) (h : Reached config source numDomains c) :
      Reached config source numDomains (c.request req).1
  | write {c c' : Client A} {id block : ℤ} {st : Status} {out : Option RemoteWriteMessage}
      (h : Reached config source numDomains c) (hw : write c id block = some (c', st, out)) :
      Reached config source numDomains c'
  | notify {c : Client A} {id : ℤ} {v v' : Variable A} {l : Layout}
      (h : Reached config source numDomains c) (hv : c.vars id = some v)
      (hl : v.notify l = some v') :
      Reached config source numDomains { c with vars := c.vars.set id v' }
  | startNextIteration {c : Client A} (h : Reached config source numDomains c) :
      Reached config source numDomains c.startNextIteration

/-- The two messages say the same about the block, and the remote write reads nothing
outside the position. -/
def Agrees (c : Client A) (id block : ℤ) : Prop :=
  ∃ c' rwm, write c id block = some (c', .OK, some rwm) ∧
    ∀ (buffer : Buffer Unit A) c'' st wm, c.write id block (some buffer) = (c'', st, some wm) →
      rwm.id = wm.id ∧ rwm.source = wm.source ∧ rwm.iteration = wm.iteration ∧
        rwm.block = wm.block ∧ rwm.dims = wm.dims.map DimBounds.inLong

end RemoteClient

/-! ### The positions of a variable -/

/-- A domain's position has an entry for every dimension, or was filed empty. -/
def Data.Variable.Placed {A : Type*} (v : Variable A) : Prop :=
  ∀ bid p, v.positions bid = some p → p.length = v.layout.dimensions ∨ p = []

namespace RemoteClient

variable {A : Type*} {config : ℤ → Option (Bool × Layout)} {source numDomains id block : ℤ}
  {c c' : Client A} {v v' : Variable A}

def Placed (c : Client A) : Prop := ∀ id v, c.vars id = some v → v.Placed

theorem Placed.set (h : Placed c) (hv : v'.Placed) (hvars : c'.vars = c.vars.set id v') :
    Placed c' := by
  intro id' w hw
  rw [hvars] at hw
  by_cases hid : id' = id
  · subst hid
    obtain rfl := Option.some.inj ((Variables.set_same ..).symm.trans hw)
    exact hv
  · exact h id' w ((Variables.set_of_ne hid).symm.trans hw)

end RemoteClient

theorem Data.Variable.Placed.congr {A : Type*} {v v' : Variable A} (h : v.Placed)
    (hpos : v'.positions = v.positions) (hlayout : v'.layout = v.layout) : v'.Placed := by
  intro bid p hp
  rw [hlayout]
  exact h bid p (hpos ▸ hp)

theorem Data.Variable.positions_detachBlock {A : Type*} (v : Variable A) (b : Option (Block A)) :
    (v.detachBlock b).1.positions = v.positions := by
  unfold detachBlock
  cases b with
  | none => rfl
  | some b =>
    simp only
    split <;> rfl

theorem Data.Variable.Placed.getPositions {A : Type*} {v : Variable A} (h : v.Placed) (bid : ℤ) :
    (v.getPositions bid).1.Placed := by
  unfold Variable.getPositions
  cases hp : v.positions bid with
  | some p => exact h
  | none =>
    intro bid' p' hp'
    by_cases hbid : bid' = bid
    · subst hbid
      simp only [Function.update_self, Option.some.injEq] at hp'
      exact .inr hp'.symm
    · simp only [Function.update_of_ne hbid] at hp'
      exact h bid' p' hp'

theorem Data.Variable.Placed.setPosition {A : Type*} {v : Variable A} (h : v.Placed) (bid : ℤ)
    (p : List ℤ) : (v.setPosition bid p).1.Placed := by
  unfold Variable.setPosition
  split_ifs with hlength
  · exact h
  · intro bid' p' hp'
    by_cases hbid : bid' = bid
    · subst hbid
      simp only [Function.update_self, Option.some.injEq] at hp'
      exact .inl (hp' ▸ not_not.mp hlength)
    · simp only [Function.update_of_ne hbid] at hp'
      exact h bid' p' hp'

namespace RemoteClient

variable {A : Type*} {config : ℤ → Option (Bool × Layout)} {source numDomains id block : ℤ}
  {c c' : Client A} {v v' : Variable A}

theorem Placed.request (h : Placed c) (req : Client.Request A) : Placed (c.request req).1 := by
  cases req with
  | connect => exact h
  | stop => exact h
  | signal bcast id => exact h
  | write id block buffer =>
    simp only [Client.request, Client.write]
    cases hs : c.search id block with
    | error e => exact h
    | ok v =>
      have hv := h id v (Client.search_ok hs)
      have hadds := v.allocate_adds buffer c.source c.iteration block
      simp only
      rcases hcall : v.allocate buffer c.source c.iteration block with ⟨v', _ | b⟩ <;>
        rw [hcall] at hadds
      · exact h.set (hv.congr hadds.positions hadds.layout) rfl
      · have hdetached := hv.congr ((v'.positions_detachBlock (some b)).trans hadds.positions)
          ((v'.layout_detachBlock (some b)).trans hadds.layout)
        simp only
        cases b.dataspace <;> exact h.set hdetached rfl
  | alloc id block buffer =>
    simp only [Client.request, Client.alloc]
    cases hs : c.search id block with
    | error e => exact h
    | ok v =>
      have hv := h id v (Client.search_ok hs)
      have hadds := v.allocateAligned_adds buffer c.source c.iteration block
      simp only
      rcases hcall : v.allocateAligned buffer c.source c.iteration block with ⟨v', _ | b⟩ <;>
        rw [hcall] at hadds <;> exact h.set (hv.congr hadds.positions hadds.layout) rfl
  | commit id block iteration =>
    rw [Client.request]
    obtain ⟨hsame, -⟩ | ⟨v, b, hv, -, hcommit⟩ := c.commit_cases id block iteration
    · rw [hsame]
      exact h
    · rw [hcommit]
      have hstored : (v.store (b.setReadOnly true)).Placed := (h id v hv).congr rfl rfl
      exact h.set hstored rfl
  | clear id block iteration =>
    rw [Client.request]
    obtain hsame | ⟨v, b, hv, -, hclear⟩ := c.clear_cases id block iteration
    · rw [hsame]
      exact h
    · rw [hclear]
      have hstored : (v.store (b.setReadOnly false)).Placed := (h id v hv).congr rfl rfl
      have hcleared := hstored.congr (Variable.positions_detachBlock _ (some (b.setReadOnly false)))
        (Variable.layout_detachBlock _ (some (b.setReadOnly false)))
      exact h.set hcleared rfl
  | setPosition id block p =>
    simp only [Client.request, Client.setPosition]
    cases hs : c.search id block with
    | error e => exact h
    | ok v => exact h.set ((h id v (Client.search_ok hs)).setPosition block _) rfl

theorem write_cases {st : Status} {out : Option RemoteWriteMessage}
    (h : write c id block = some (c', st, out)) : c' = c ∨ ∃ v, c.vars id = some v ∧
      c' = { c with vars := c.vars.set id (v.getPositions block).1 } := by
  unfold write at h
  cases hs : c.search id block with
  | error e =>
    simp only [hs, Option.some.injEq, Prod.mk.injEq] at h
    exact .inl h.1.symm
  | ok v =>
    simp only [hs, Option.ite_none_right_eq_some, Option.some.injEq, Prod.mk.injEq] at h
    exact .inr ⟨v, Client.search_ok hs, h.2.1.symm⟩

/-- What the message of a remote write says of its size and number of dimensions. -/
theorem write_sent {rwm : RemoteWriteMessage} (hv : c.vars id = some v)
    (h : write c id block = some (c', .OK, some rwm)) :
    rwm.id = id ∧ rwm.dims.length = v.layout.dimensions ∧ rwm.size = v.layout.requiredMemory := by
  unfold write at h
  cases hs : c.search id block with
  | error e => simp [hs] at h
  | ok w =>
    obtain rfl := Option.some.inj ((Client.search_ok hs).symm.trans hv)
    simp only [hs, Option.ite_none_right_eq_some, Option.some.injEq, Prod.mk.injEq] at h
    obtain ⟨hle, -, -, rfl⟩ := h
    refine ⟨rfl, ?_, rfl⟩
    rw [List.length_zipWith]
    exact min_eq_left hle

theorem Reached.placed (h : Reached config source numDomains c) : Placed c := by
  induction h with
  | initial =>
    intro id v hv bid p hp
    obtain ⟨x, -, rfl⟩ := Option.map_eq_some_iff.mp hv
    exact absurd hp (Option.some_ne_none p).symm
  | request req _ ih => exact ih.request req
  | write _ hw ih =>
    rcases write_cases hw with rfl | ⟨v, hv, rfl⟩
    · exact ih
    · exact ih.set ((ih _ v hv).getPositions _) rfl
  | notify _ hv hl ih =>
    refine ih.set (fun bid p hp => ?_) rfl
    unfold Variable.notify at hl
    obtain ⟨hdims, hl⟩ := Option.ite_none_right_eq_some.mp hl
    obtain rfl := Option.some.inj hl
    rw [hdims]
    exact ih _ _ hv bid p hp
  | startNextIteration _ ih => exact ih

/-! ### The two messages -/

/-- The block that `Write` fills has the bounds that the remote message is made of. -/
theorem dims_blockOf {p : List ℤ} (hp : v.positions block = some p)
    (hlength : p.length = v.layout.dimensions) (source iteration : ℤ) (ds : Option A) :
    (dimsOf v.layout.dimensions (v.blockOf source iteration block ds)).map DimBounds.inLong =
      List.zipWith dimBounds v.layout.along p := by
  have hblock : v.blockOf source iteration block ds = v.adopt (Block.move v.layout.dimensions p
      ((Block.new source (v.normalise iteration) block v.layout).setDataSpace ds)) := by
    rw [Variable.blockOf, Variable.place]
    simp only [Block.setDataSpace, Block.new, hp]
  rw [hblock, Block.move, if_neg (not_not.mpr hlength)]
  have hdims : v.layout.along.length = v.layout.dimensions := rfl
  refine List.ext_getElem (by simp [hdims, hlength]) fun i hi _ => ?_
  have halong : i < v.layout.along.length := by simpa [hdims] using hi
  have hpi : i < p.length := hlength ▸ halong
  simp [dimsOf, Variable.adopt, Block.setDataSpace, Block.new, DimBounds.inLong, dimBounds, halong, hpi]

theorem getPositions_of_eq_some {p : List ℤ} (hp : v.positions block = some p) :
    (v.getPositions block).2 = p := by
  simp only [Variable.getPositions, hp]

/-- With or without a message of `Write` to compare, the remote write reads inside the position
and says the same about the block exactly when a position is set, or the layout has no dimension. -/
theorem agrees_iff (hc : Reached config source numDomains c) (hs : c.search id block = .ok v) :
    Agrees c id block ↔
      v.layout.dimensions = 0 ∨ ∃ p, v.positions block = some p ∧ p.length = v.layout.dimensions := by
  have hv := Client.search_ok hs
  constructor
  · rintro ⟨c', rwm, hw, -⟩
    simp only [write, hs, Option.ite_none_right_eq_some] at hw
    obtain ⟨hle, -⟩ := hw
    cases hp : v.positions block with
    | none =>
      simp only [Variable.getPositions, hp, List.length_nil, Nat.le_zero] at hle
      exact .inl hle
    | some p =>
      rw [getPositions_of_eq_some hp] at hle
      rcases hc.placed id v hv block p hp with hlength | rfl
      · exact .inr ⟨p, rfl, hlength⟩
      · exact .inl (Nat.le_zero.mp hle)
  · intro hset
    have hle : v.layout.dimensions ≤ (v.getPositions block).2.length := by
      rcases hset with hzero | ⟨p, hp, hlength⟩
      · omega
      · rw [getPositions_of_eq_some hp, hlength]
    have hdims : ∀ ds, (dimsOf v.layout.dimensions
        (v.blockOf c.source c.iteration block ds)).map DimBounds.inLong =
        List.zipWith dimBounds v.layout.along (v.getPositions block).2 := by
      intro ds
      rcases hset with hzero | ⟨p, hp, hlength⟩
      · rw [hzero, List.length_eq_zero_iff.mp hzero]
        rfl
      · rw [getPositions_of_eq_some hp]
        exact dims_blockOf hp hlength c.source c.iteration ds
    refine ⟨_, _, by rw [write, hs]; exact if_pos hle, fun buffer c'' st wm hwrite => ?_⟩
    obtain ⟨ds, -, -, rfl⟩ := Client.write_sent hv hwrite
    exact ⟨rfl, rfl, rfl, rfl, (hdims (some ds)).symm⟩

/-- A variable of two dimensions, and what `SetPosition` of its domain 0 leaves of a client that
has it. -/
def gridConfig (id : ℤ) : Option (Bool × Layout) :=
  if id = 0 then some (true, ⟨4, [⟨2, 8, (0, 1)⟩, ⟨3, 9, (1, 0)⟩]⟩) else none

def gridClient : Client ℕ := ⟨3, 0, 1, .new gridConfig, false⟩

def placedGrid : Client ℕ := (gridClient.request (.setPosition 0 0 [4, 6])).1

theorem agrees_placedGrid : Agrees placedGrid 0 0 :=
  (agrees_iff (.request _ .initial) (by rfl)).mpr (.inr ⟨[4, 6], by rfl, by rfl⟩)

/-- Without a position the first round already reads outside. -/
theorem unplaced_reads_outside : Reached gridConfig 3 1 gridClient ∧
    (∃ v, gridClient.search 0 0 = .ok v) ∧ write gridClient 0 0 = none ∧
    ¬ Agrees gridClient 0 0 := by
  refine ⟨.initial, ⟨_, rfl⟩, rfl, ?_⟩
  rintro ⟨c', rwm, hw, -⟩
  exact absurd hw (by simp [show write gridClient 0 0 = none from rfl])

end RemoteClient
end Damaris
