import Mathlib.Tactic
import Damaris.Data.BlockIndex
import Damaris.Msg.Streams

/-!
# The client's calls

`Write`, `Alloc`, `Commit`, `Clear` and `SetPosition` of a client that shares memory with its
server, with the code they return and the body they send. A block's data is
named by its address `A`; the handle in a message is the address of the block's
data, `none` for a null pointer. Ownership of the data is the subject of the
buffer's modules.
-/
namespace Damaris

open Data Msg

/-- The codes that the calls return, less the prefix `DAMARIS_`. -/
inductive Status
  | OK
  | UNDEFINED_VARIABLE
  | INVALID_BLOCK
  | ALLOCATION_ERROR
  | DATASPACE_ERROR
  | BLOCK_NOT_FOUND
  deriving DecidableEq

/-- A client: its rank among its kind, the iteration it is in, the number of
domains of a client, and its own variables. -/
structure Client (A : Type*) where
  source : ℤ
  iteration : ℤ
  numDomains : ℤ
  vars : Variables A
  errorOccured : Bool

namespace Client

variable {A : Type*}

/-- The first lines of every call. -/
def search (c : Client A) (id block : ℤ) : Except Status (Variable A) :=
  match c.vars id with
  | none => .error .UNDEFINED_VARIABLE
  | some v => if block < 0 ∨ c.numDomains ≤ block then .error .INVALID_BLOCK else .ok v

/-- `Client::Write`, with the buffer it finds. -/
def write (c : Client A) (id block : ℤ) (buffer : Option (Buffer Unit A)) :
    Client A × Status × Option (WriteMessage (Option A)) :=
  match c.search id block with
  | .error e => (c, e, none)
  | .ok v =>
    match v.allocate buffer c.source c.iteration block with
    | (v', none) => ({ c with vars := c.vars.set id v', errorOccured := true }, .ALLOCATION_ERROR, none)
    | (v', some b) =>
      let c' := { c with vars := c.vars.set id (v'.detachBlock (some b)).1 }
      match b.dataspace with
      | none => (c', .DATASPACE_ERROR, none)
      | some a => (c', .OK, some
          { id := id, source := c.source, iteration := c.iteration, block := block,
            dims := dimsOf v.layout.dimensions b, handle := some a })

/-- `Client::Alloc`. -/
def alloc (c : Client A) (id block : ℤ) (buffer : Option (Buffer Unit A)) : Client A × Status :=
  match c.search id block with
  | .error e => (c, e)
  | .ok v =>
    match v.allocateAligned buffer c.source c.iteration block with
    | (v', none) => ({ c with vars := c.vars.set id v', errorOccured := true }, .ALLOCATION_ERROR)
    | (v', some b) =>
      ({ c with vars := c.vars.set id v' }, if b.dataspace.isSome then .OK else .DATASPACE_ERROR)

/-- `Client::Commit`. The block is looked up under the caller's iteration; the
message carries the client's. -/
def commit (c : Client A) (id block iteration : ℤ) :
    Client A × Status × Option (WriteMessage (Option A)) :=
  match c.search id block with
  | .error e => (c, e, none)
  | .ok v =>
    match v.getBlock c.source iteration block with
    | none => (c, .BLOCK_NOT_FOUND, none)
    | some b =>
      ({ c with vars := c.vars.set id (v.store (b.setReadOnly true)) }, .OK, some
        { id := id, source := c.source, iteration := c.iteration, block := block,
          dims := dimsOf v.layout.dimensions b, handle := b.dataspace })

/-- `Client::Clear`, with the same two iterations. -/
def clear (c : Client A) (id block iteration : ℤ) : Client A × Status × Option ClearMessage :=
  match c.search id block with
  | .error e => (c, e, none)
  | .ok v =>
    match v.getBlock c.source iteration block with
    | none => (c, .BLOCK_NOT_FOUND, none)
    | some b =>
      let b := b.setReadOnly false
      ({ c with vars := c.vars.set id ((v.store b).detachBlock (some b)).1 }, .OK, some
        { id := id, source := c.source, iteration := c.iteration, block := block })

/-- `Client::SetPosition` reads as many numbers as the layout has dimensions. -/
def setPosition (c : Client A) (id block : ℤ) (p : List ℤ) : Client A × Except Status Bool :=
  match c.search id block with
  | .error e => (c, .error e)
  | .ok v =>
    let r := v.setPosition block (p.take v.layout.dimensions)
    ({ c with vars := c.vars.set id r.1 }, .ok r.2)

/-- A call of the program on a client, but for the end of an iteration. `signal`
is one of an action that servers execute. -/
inductive Request (A : Type*)
  | connect
  | stop
  | signal (bcast : Bool) (id : ℤ)
  | write (id block : ℤ) (buffer : Option (Buffer Unit A))
  | alloc (id block : ℤ) (buffer : Option (Buffer Unit A))
  | commit (id block iteration : ℤ)
  | clear (id block iteration : ℤ)
  | setPosition (id block : ℤ) (p : List ℤ)

/-- The client after the call, and what the call has sent. Without data to
follow a body there are no remote writes among it. -/
def request (c : Client A) : Request A → Client A × Option (Operation (Option A) Empty)
  | .connect => (c, some .connect)
  | .stop => (c, some .stop)
  | .signal bcast id => (c, some (.event bcast ⟨id, c.source, c.iteration⟩))
  | .write id block buffer =>
    let r := c.write id block buffer
    (r.1, r.2.2.map .write)
  | .alloc id block buffer => ((c.alloc id block buffer).1, none)
  | .commit id block iteration =>
    let r := c.commit id block iteration
    (r.1, r.2.2.map .commit)
  | .clear id block iteration =>
    let r := c.clear id block iteration
    (r.1, r.2.2.map .clear)
  | .setPosition id block p => ((c.setPosition id block p).1, none)

/-- The end of `EndIteration`: `StartNextIteration`, and the error is forgotten. -/
def startNextIteration (c : Client A) : Client A :=
  { c with iteration := c.iteration + 1, errorOccured := false }

theorem search_ok {c : Client A} {id block : ℤ} {v : Variable A} (h : c.search id block = .ok v) :
    c.vars id = some v := by
  unfold search at h
  split at h
  · exact absurd h nofun
  · next hv =>
    split_ifs at h
    obtain rfl := Except.ok.inj h
    exact hv

/-- What every call keeps of its client. -/
structure Keeps (config : ℤ → Option (Bool × Layout)) (c c' : Client A) : Prop where
  source : c'.source = c.source
  iteration : c'.iteration = c.iteration
  configured : c.vars.Configured config → c'.vars.Configured config

theorem Keeps.refl (config : ℤ → Option (Bool × Layout)) (c : Client A) : Keeps config c c :=
  ⟨rfl, rfl, fun h => h⟩

/-- A message about a block has the client's iteration, and the dimensions of
the variable it names. -/
structure Describes (c : Client A) (id : ℤ) (m : WriteMessage (Option A)) : Prop where
  names : m.id = id
  iteration : m.iteration = c.iteration
  dims : ∃ v, c.vars id = some v ∧ m.dims.length = v.layout.dimensions

variable {config : ℤ → Option (Bool × Layout)} {c c' : Client A} {id block iteration : ℤ}
  {buffer : Option (Buffer Unit A)} {st : Status}

/-- Whatever `Write` returns; its message, if there is one, names a region. -/
theorem write_spec {out : Option (WriteMessage (Option A))}
    (h : c.write id block buffer = (c', st, out)) :
    Keeps config c c' ∧ ∀ m, out = some m → Describes c id m ∧ m.handle ≠ none := by
  unfold write at h
  cases hs : c.search id block with
  | error e =>
    rw [hs] at h
    obtain ⟨rfl, hout⟩ := Prod.mk.inj h
    obtain ⟨-, rfl⟩ := Prod.mk.inj hout
    exact ⟨.refl config c, nofun⟩
  | ok v =>
    have hv := search_ok hs
    have hadds := v.allocate_adds buffer c.source c.iteration block
    rw [hs] at h
    simp only at h
    rcases halloc : v.allocate buffer c.source c.iteration block with ⟨v', _ | b⟩
    · rw [halloc] at h hadds
      obtain ⟨rfl, hout⟩ := Prod.mk.inj h
      obtain ⟨-, rfl⟩ := Prod.mk.inj hout
      exact ⟨⟨rfl, rfl, fun hc => hc.set hv hadds.timeVarying hadds.layout⟩, nofun⟩
    · rw [halloc] at h hadds
      have hkeep : c.vars.Configured config →
          (c.vars.set id (v'.detachBlock (some b)).1).Configured config := fun hc =>
        hc.set hv ((v'.detachBlock_shrinks (some b)).1.trans hadds.timeVarying)
          ((Variable.layout_detachBlock _ _).trans hadds.layout)
      simp only at h
      cases hds : b.dataspace with
      | none =>
        rw [hds] at h
        obtain ⟨rfl, hout⟩ := Prod.mk.inj h
        obtain ⟨-, rfl⟩ := Prod.mk.inj hout
        exact ⟨⟨rfl, rfl, hkeep⟩, nofun⟩
      | some a =>
        rw [hds] at h
        obtain ⟨rfl, hout⟩ := Prod.mk.inj h
        obtain ⟨-, rfl⟩ := Prod.mk.inj hout
        refine ⟨⟨rfl, rfl, hkeep⟩, fun m hm => ?_⟩
        obtain rfl := Option.some.inj hm
        exact ⟨⟨rfl, rfl, v, hv, length_dimsOf _ _⟩, nofun⟩

/-- An `Alloc` that returns `OK` has added blocks with data only. -/
theorem alloc_spec (h : c.alloc id block buffer = (c', st)) :
    Keeps config c c' ∧ (st = .OK → ∀ id b, c'.vars.Stores id b →
      c.vars.Stores id b ∨ b.dataspace ≠ none) := by
  unfold alloc at h
  cases hs : c.search id block with
  | error e =>
    rw [hs] at h
    obtain ⟨rfl, -⟩ := Prod.mk.inj h
    exact ⟨.refl config c, fun _ _ _ hb => .inl hb⟩
  | ok v =>
    have hv := search_ok hs
    have hadds := v.allocateAligned_adds buffer c.source c.iteration block
    rw [hs] at h
    simp only at h
    rcases halloc : v.allocateAligned buffer c.source c.iteration block with ⟨v', _ | b⟩
    · rw [halloc] at h hadds
      obtain ⟨rfl, rfl⟩ := Prod.mk.inj h
      exact ⟨⟨rfl, rfl, fun hc => hc.set hv hadds.timeVarying hadds.layout⟩, nofun⟩
    · rw [halloc] at h hadds
      obtain ⟨rfl, rfl⟩ := Prod.mk.inj h
      refine ⟨⟨rfl, rfl, fun hc => hc.set hv hadds.timeVarying hadds.layout⟩,
        fun hok id' y hy => ?_⟩
      rcases Variables.stores_set.mp hy with ⟨rfl, hmem⟩ | ⟨-, hmem⟩
      · rcases (hadds.added b rfl y).mp hmem with hold | rfl
        · exact .inl ((Variables.stores_of_eq_some hv).mpr hold)
        · refine .inr fun hnone => ?_
          rw [hnone] at hok
          exact absurd hok nofun
      · exact .inl hmem

/-- Writes to the flag of a stored block leave the data of all blocks alone. -/
theorem dataspace_of_store {v : Variable A} {b y : Block A} {ro : Bool} (hb : b ∈ v.blocks)
    (hy : y ∈ (v.store (b.setReadOnly ro)).blocks) :
    ∃ z ∈ v.blocks, y.dataspace = z.dataspace := by
  rcases KeyedStore.mem_replace.mp hy with ⟨rfl, -⟩ | ⟨hy, -⟩
  · exact ⟨b, hb, Block.dataspace_setReadOnly ro b⟩
  · exact ⟨y, hy, rfl⟩

/-- `Commit` leaves the client alone, or stores a block of it as read-only and sends a message. -/
theorem commit_cases (c : Client A) (id block iteration : ℤ) :
    ((c.commit id block iteration).1 = c ∧ (c.commit id block iteration).2.2 = none) ∨
      ∃ v b, c.vars id = some v ∧ b ∈ v.blocks ∧ c.commit id block iteration =
        ({ c with vars := c.vars.set id (v.store (b.setReadOnly true)) }, .OK, some
          { id := id, source := c.source, iteration := c.iteration, block := block,
            dims := dimsOf v.layout.dimensions b, handle := b.dataspace }) := by
  unfold commit
  cases hs : c.search id block with
  | error e => exact .inl ⟨rfl, rfl⟩
  | ok v =>
    simp only
    cases hget : v.getBlock c.source iteration block with
    | none => exact .inl ⟨rfl, rfl⟩
    | some b => exact .inr ⟨v, b, search_ok hs, (KeyedStore.find_eq_some.mp hget).1, rfl⟩

/-- `Commit` only looks at blocks; its message names the data of one of them. -/
theorem commit_spec {out : Option (WriteMessage (Option A))}
    (h : c.commit id block iteration = (c', st, out)) :
    Keeps config c c' ∧
      (∀ id b, c'.vars.Stores id b → ∃ d, c.vars.Stores id d ∧ b.dataspace = d.dataspace) ∧
        ∀ m, out = some m → Describes c id m ∧ ∃ b, c.vars.Stores id b ∧ m.handle = b.dataspace := by
  have hsame : ∀ id b, c.vars.Stores id b → ∃ d, c.vars.Stores id d ∧ b.dataspace = d.dataspace :=
    fun _ b hb => ⟨b, hb, rfl⟩
  obtain ⟨hc', hout⟩ | ⟨v, b, hv, hb, hcommit⟩ := c.commit_cases id block iteration
  · rw [h] at hc' hout
    obtain rfl : c' = c := hc'
    obtain rfl : out = none := hout
    exact ⟨.refl config c', hsame, nofun⟩
  · obtain ⟨rfl, hout⟩ := Prod.mk.inj (h.symm.trans hcommit)
    obtain ⟨-, rfl⟩ := Prod.mk.inj hout
    refine ⟨⟨rfl, rfl, fun hc => hc.set hv rfl rfl⟩, fun id' y hy => ?_, fun m hm => ?_⟩
    · rcases Variables.stores_set.mp hy with ⟨rfl, hmem⟩ | ⟨-, hmem⟩
      · obtain ⟨z, hz, hds⟩ := dataspace_of_store hb hmem
        exact ⟨z, (Variables.stores_of_eq_some hv).mpr hz, hds⟩
      · exact hsame id' y hmem
    · obtain rfl := Option.some.inj hm
      exact ⟨⟨rfl, rfl, v, hv, length_dimsOf _ _⟩, b, (Variables.stores_of_eq_some hv).mpr hb, rfl⟩

/-- `Clear` leaves the client alone, or makes a block of it writable and detaches it. -/
theorem clear_cases (c : Client A) (id block iteration : ℤ) :
    (c.clear id block iteration).1 = c ∨
      ∃ v b, c.vars id = some v ∧ b ∈ v.blocks ∧ (c.clear id block iteration).1 =
        { c with
          vars := c.vars.set id
            ((v.store (b.setReadOnly false)).detachBlock (some (b.setReadOnly false))).1 } := by
  unfold clear
  cases hs : c.search id block with
  | error e => exact .inl rfl
  | ok v =>
    simp only
    cases hget : v.getBlock c.source iteration block with
    | none => exact .inl rfl
    | some b => exact .inr ⟨v, b, search_ok hs, (KeyedStore.find_eq_some.mp hget).1, rfl⟩

theorem clear_spec {out : Option ClearMessage} (h : c.clear id block iteration = (c', st, out)) :
    Keeps config c c' ∧
      ∀ id b, c'.vars.Stores id b → ∃ d, c.vars.Stores id d ∧ b.dataspace = d.dataspace := by
  have hsame : ∀ id b, c.vars.Stores id b → ∃ d, c.vars.Stores id d ∧ b.dataspace = d.dataspace :=
    fun _ b hb => ⟨b, hb, rfl⟩
  obtain hc' | ⟨v, b, hv, hb, hc'⟩ := c.clear_cases id block iteration
  · rw [h] at hc'
    obtain rfl : c' = c := hc'
    exact ⟨.refl config c', hsame⟩
  · rw [h] at hc'
    obtain rfl := hc'
    have hshrinks := (v.store (b.setReadOnly false)).detachBlock_shrinks
      (some (b.setReadOnly false))
    refine ⟨⟨rfl, rfl, fun hc => hc.set hv hshrinks.1 (Variable.layout_detachBlock _ _)⟩,
      fun id' y hy => ?_⟩
    rcases Variables.stores_set.mp hy with ⟨rfl, hmem⟩ | ⟨-, hmem⟩
    · obtain ⟨z, hz, hds⟩ := dataspace_of_store hb (hshrinks.2 y hmem)
      exact ⟨z, (Variables.stores_of_eq_some hv).mpr hz, hds⟩
    · exact hsame id' y hmem

theorem setPosition_keeps (config : ℤ → Option (Bool × Layout)) (c : Client A) (id block : ℤ)
    (p : List ℤ) : Keeps config c (c.setPosition id block p).1 := by
  unfold setPosition
  cases hs : c.search id block with
  | error e => exact .refl config c
  | ok v =>
    refine ⟨rfl, rfl, fun hc => hc.set (search_ok hs) ?_ ?_⟩ <;>
      simp only [Variable.setPosition] <;> split <;> rfl

end Client
end Damaris
