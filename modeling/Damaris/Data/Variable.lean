import Mathlib.Tactic
import Damaris.Lib.KeyedStore
import Damaris.Data.Block

/-!
# `Variable` and its index of blocks

The operations of `Variable` on its `BlockIndex`. A block is reached through
shared pointers, so what a call does to a block after attaching it is a write
to the stored block (`store`). The buffer is whatever it answers during one
call; calls with `blocking` set that keep waiting do not return and are not
part of the model.
-/
namespace Damaris.Data

/-- What the buffer of a variable answers: the dataspace it hands out for a
request, `none` when its size is not the one asked for (a request of size zero
is met by an unlinked one, `some none`); and the dataspace linked to the address
of a handle, `none` for a null address. -/
structure Buffer (H D : Type*) where
  allocate : ℕ → Option (Option D)
  allocateAligned : ℕ → Option (Option D)
  link : H → ℕ → Option D

/-- The fields of `Variable` that its operations on blocks use. -/
structure Variable (D : Type*) where
  timeVarying : Bool
  layout : Layout
  positions : ℤ → Option (List ℤ)
  blocks : KeyedStore (Block.key : Block D → ℤ × ℤ × ℤ)

namespace Variable

variable {H D : Type*}

/-- `Variable::New`. -/
def new (timeVarying : Bool) (layout : Layout) : Variable D :=
  ⟨timeVarying, layout, fun _ => none, KeyedStore.empty⟩

/-- The iteration under which a variable files a block. -/
def normalise (v : Variable D) (iteration : ℤ) : ℤ := if v.timeVarying then iteration else 0

/-- What `AttachBlock` does to the block before it is inserted. -/
def adopt (v : Variable D) (b : Block D) : Block D := { b with iteration := v.normalise b.iteration }

/-- Writes through a pointer to a stored block. -/
def store (v : Variable D) (b : Block D) : Variable D := { v with blocks := v.blocks.replace b }

/-- The move that follows a look-up of the domain's position. -/
def place (v : Variable D) (b : Block D) : Block D :=
  match v.positions b.id with
  | none => b
  | some p => b.move v.layout.dimensions p

/-- `SetPosition`. -/
def setPosition (v : Variable D) (bid : ℤ) (p : List ℤ) : Variable D × Bool :=
  if p.length ≠ v.layout.dimensions then (v, false)
  else ({ v with positions := Function.update v.positions bid (some p) }, true)

/-- `AttachBlock`. -/
def attachBlock (v : Variable D) (block : Option (Block D)) : Variable D × Bool :=
  match block with
  | none => (v, false)
  | some b =>
    let inserted := v.blocks.insert (v.adopt b)
    ({ v with blocks := inserted.1 }, inserted.2)

/-- `GetBlock`. -/
def getBlock (v : Variable D) (source iteration block : ℤ) : Option (Block D) :=
  v.blocks.find (source, v.normalise iteration, block)

/-- `DetachBlock`: whatever block is filed under the key of `c` is removed. -/
def detachBlock (v : Variable D) (c : Option (Block D)) : Variable D × Bool :=
  match c with
  | none => (v, true)
  | some b =>
    if (v.blocks.find b.key).isSome then ({ v with blocks := v.blocks.erase b.key }, true)
    else (v, false)

def clearAll (v : Variable D) : Variable D := { v with blocks := KeyedStore.empty }

def clearIteration (v : Variable D) (iteration : ℤ) : Variable D :=
  { v with blocks := v.blocks.filter fun b => decide (b.iteration ≠ iteration) }

/-- `ClearUpToIteration` erases from the first block at or above -1 to the last
one at or below `iteration`. The range is invalid, and erasing it undefined,
when the end lies before the beginning. -/
def clearUpToIteration (v : Variable D) (iteration : ℤ) : Option (Variable D) :=
  if ∃ b ∈ v.blocks.elems, iteration < b.iteration ∧ b.iteration < -1 then none
  else some { v with
    blocks := v.blocks.filter fun b => decide ¬ (-1 ≤ b.iteration ∧ b.iteration ≤ iteration) }

def clearSource (v : Variable D) (source : ℤ) : Variable D :=
  { v with blocks := v.blocks.filter fun b => decide (b.source ≠ source) }

def clearId (v : Variable D) (id : ℤ) : Variable D :=
  { v with blocks := v.blocks.filter fun b => decide (b.id ≠ id) }

/-- The part that the three `Allocate` functions share: the checks before the
request, and the refusal of a block that is already there. `fill` prepares the
new block, `size` is its request, `finish` what is done once it has its data. -/
def allocateWith (v : Variable D) (request : Option (ℕ → Option (Option D))) (source iteration bid : ℤ)
    (fill : Block D → Block D) (size : Block D → ℕ) (finish : Block D → Block D) :
    Variable D × Option (Block D) :=
  match request with
  | none => (v, none)
  | some allocate =>
    let iteration := v.normalise iteration
    if (v.getBlock source iteration bid).isSome then (v, none)
    else
      let block := fill (Block.new source iteration bid v.layout)
      match allocate (size block) with
      | none => (v, none)
      | some ds =>
        let block := finish (block.setDataSpace ds)
        ((v.attachBlock (some block)).1, some (v.adopt block))

/-- `Allocate`. -/
def allocate (v : Variable D) (buffer : Option (Buffer H D)) (source iteration bid : ℤ) :
    Variable D × Option (Block D) :=
  v.allocateWith (buffer.map Buffer.allocate) source iteration bid id
    (fun _ => v.layout.requiredMemory) v.place

/-- `AllocateAligned`. -/
def allocateAligned (v : Variable D) (buffer : Option (Buffer H D)) (source iteration bid : ℤ) :
    Variable D × Option (Block D) :=
  v.allocateWith (buffer.map Buffer.allocateAligned) source iteration bid id
    (fun _ => v.layout.requiredMemory) v.place

/-- `AllocateFixedSize`: the caller's bounds replace those of the layout, the
request follows from them, and the block is not moved. Undefined when the copy
is reached and a vector is shorter than the layout's dimensions. -/
def allocateFixedSize (v : Variable D) (buffer : Option (Buffer H D)) (source iteration bid : ℤ)
    (bounds : Bounds) : Option (Variable D × Option (Block D)) :=
  if buffer.isNone ∨ (v.getBlock source (v.normalise iteration) bid).isSome ∨
      bounds.Covers v.layout.dimensions then
    some (v.allocateWith (buffer.map Buffer.allocate) source iteration bid
      (Block.setBounds v.layout.dimensions bounds)
      (fun b => toSize (b.numberOfItems * v.layout.typeSize)) id)
  else none

/-- `Retrieve` with a size. -/
def retrieve (v : Variable D) (buffer : Option (Buffer H D)) (source iteration bid : ℤ) (h : H)
    (size : ℕ) : Variable D × Option (Block D) :=
  match buffer with
  | none => (v, none)
  | some buffer =>
    if (v.getBlock source iteration bid).isSome then (v, none)
    else
      match buffer.link h size with
      | none => (v, none)
      | some ds =>
        let block := (Block.new source iteration bid v.layout).setDataSpace (some ds)
        let attached := (v.attachBlock (some block)).1
        let block := attached.place (v.adopt block)
        (attached.store block, some block)

/-- The size that `Retrieve` computes from bounds. -/
def boundsSize (v : Variable D) (bounds : Bounds) : ℕ :=
  toSize (v.layout.typeSize *
    (List.zipWith (fun u l => u - l + 1) bounds.ubounds bounds.lbounds).prod)

/-- `Retrieve` with bounds. Undefined when, the block being there, the global
bounds or the ghosts are too short for it. -/
def retrieveBounds (v : Variable D) (buffer : Option (Buffer H D)) (source iteration bid : ℤ)
    (bounds : Bounds) (h : H) : Option (Variable D × Option (Block D)) :=
  if bounds.lbounds.length ≠ v.layout.dimensions ∨ bounds.ubounds.length ≠ v.layout.dimensions then
    some (v, none)
  else
    match v.retrieve buffer source iteration bid h (v.boundsSize bounds) with
    | (v', none) => some (v', none)
    | (v', some b) =>
      if bounds.Covers v.layout.dimensions then
        let b := b.setBounds v.layout.dimensions bounds
        some (v'.store b, some b)
      else none

end Variable
end Damaris.Data

namespace Damaris

/-- `VariableManager`: the variables by their id. -/
abbrev Variables (D : Type*) := ℤ → Option (Data.Variable D)

namespace Variables

variable {D : Type*}

def set (vs : Variables D) (id : ℤ) (v : Data.Variable D) : Variables D :=
  Function.update vs id (some v)

@[simp] theorem set_same (vs : Variables D) (id : ℤ) (v : Data.Variable D) :
    vs.set id v id = some v :=
  Function.update_self _ _ _

theorem set_of_ne {vs : Variables D} {id id' : ℤ} {v : Data.Variable D} (h : id' ≠ id) :
    vs.set id v id' = vs id' :=
  Function.update_of_ne h _ _

/-- The variables that the configuration describes, before the first block. -/
def new (config : ℤ → Option (Bool × Data.Layout)) : Variables D :=
  fun id => (config id).map fun x => Data.Variable.new x.1 x.2

/-- A configuration with one variable, of one element an iteration. -/
def oneVariable (id : ℤ) : Option (Bool × Data.Layout) :=
  if id = 0 then some (true, ⟨4, [⟨1, 1, (0, 0)⟩]⟩) else none

/-- Variables as configured, whatever blocks they hold. -/
def Configured (config : ℤ → Option (Bool × Data.Layout)) (vs : Variables D) : Prop :=
  ∀ id, (vs id).map (fun v => (v.timeVarying, v.layout)) = config id

theorem configured_new (config : ℤ → Option (Bool × Data.Layout)) :
    (new config : Variables D).Configured config := by
  intro id
  cases h : config id <;> simp [new, h, Data.Variable.new]

theorem Configured.set {config : ℤ → Option (Bool × Data.Layout)} {vs : Variables D}
    (h : vs.Configured config) {id : ℤ} {v v' : Data.Variable D} (hv : vs id = some v)
    (htv : v'.timeVarying = v.timeVarying) (hl : v'.layout = v.layout) :
    (vs.set id v').Configured config := by
  intro id'
  by_cases hid : id' = id
  · subst hid
    rw [set_same, ← h id', hv, Option.map_some, Option.map_some, htv, hl]
  · rw [set_of_ne hid]
    exact h id'

/-- The variable with this id holds the block. -/
def Stores (vs : Variables D) (id : ℤ) (b : Data.Block D) : Prop := ∃ v, vs id = some v ∧ b ∈ v.blocks

theorem not_stores_new {config : ℤ → Option (Bool × Data.Layout)} {id : ℤ} {b : Data.Block D} :
    ¬ (new config).Stores id b := by
  rintro ⟨v, hv, hb⟩
  obtain ⟨x, -, rfl⟩ := Option.map_eq_some_iff.mp hv
  exact KeyedStore.notMem_empty b hb

theorem stores_set {vs : Variables D} {id id' : ℤ} {v : Data.Variable D} {b : Data.Block D} :
    (vs.set id v).Stores id' b ↔ (id' = id ∧ b ∈ v.blocks) ∨ (id' ≠ id ∧ vs.Stores id' b) := by
  by_cases hid : id' = id
  · subst hid
    simp [Stores]
  · simp [Stores, set_of_ne hid, hid]

theorem stores_of_eq_some {vs : Variables D} {id : ℤ} {v : Data.Variable D} {b : Data.Block D}
    (hv : vs id = some v) : vs.Stores id b ↔ b ∈ v.blocks := by
  simp [Stores, hv]

/-- Blocks disappear from variables in other ways than through the handlers of
messages: by the garbage collector, by plugins. -/
def discard (vs : Variables D) (keep : ℤ → Data.Block D → Bool) : Variables D :=
  fun id => (vs id).map fun v => { v with blocks := v.blocks.filter (keep id) }

theorem Configured.discard {config : ℤ → Option (Bool × Data.Layout)} {vs : Variables D}
    (h : vs.Configured config) (keep : ℤ → Data.Block D → Bool) :
    (vs.discard keep).Configured config := by
  intro id
  rw [← h id, Variables.discard, Option.map_map]
  rfl

end Variables
end Damaris
