import Mathlib.Tactic

/-!
# Layouts and blocks

A `Block` is what a client wrote: its source, iteration and domain id, its
bounds, and the dataspace that holds the data. What a dataspace is stays a
parameter `D`; `none` is one without data, not linked to memory. Sizes wrap around where the
source computes them in `size_t` or `int`.
-/
namespace Damaris.Data

/-- The value a `size_t` holds. -/
def toSize (x : ℤ) : ℕ := (x % 2 ^ 64).toNat

/-- The value an `int` holds. -/
def toInt (x : ℤ) : ℤ := Int.bmod x (2 ^ 32)

/-- What a layout answers about one of its dimensions. -/
structure Dimension where
  extent : ℕ
  global : ℕ
  ghost : ℕ × ℕ
  deriving DecidableEq

/-- A layout: the size of its elements' type, and its dimensions in order. -/
structure Layout where
  typeSize : ℕ
  along : List Dimension
  deriving DecidableEq

namespace Layout

def dimensions (l : Layout) : ℕ := l.along.length

/-- `GetRequiredMemory`. -/
def requiredMemory (l : Layout) : ℕ :=
  toSize (l.typeSize * (l.along.map Dimension.extent).prod)

end Layout

structure Block (D : Type*) where
  source : ℤ
  iteration : ℤ
  id : ℤ
  lowerBounds : List ℤ
  upperBounds : List ℤ
  globalDims : List ℕ
  ghosts : List (ℕ × ℕ)
  dataspace : Option D
  readOnly : Bool
  deriving DecidableEq

/-- The bounds a caller passes for a block, one entry a dimension (two for ghosts). -/
structure Bounds where
  lbounds : List ℤ
  ubounds : List ℤ
  gbounds : List ℤ
  ghosts : List ℕ
  deriving DecidableEq

/-- Indexing the vectors of `Bounds` up to `d` stays inside them. -/
def Bounds.Covers (bs : Bounds) (d : ℕ) : Prop :=
  d ≤ bs.lbounds.length ∧ d ≤ bs.ubounds.length ∧ d ≤ bs.gbounds.length ∧ 2 * d ≤ bs.ghosts.length

instance (bs : Bounds) (d : ℕ) : Decidable (bs.Covers d) := inferInstanceAs (Decidable (_ ∧ _))

namespace Block

variable {D : Type*}

/-- `Block::New`: bounds from the layout, no dataspace yet. -/
def new (source iteration id : ℤ) (layout : Layout) : Block D where
  source := source
  iteration := iteration
  id := id
  lowerBounds := layout.along.map fun _ => 0
  upperBounds := layout.along.map fun d => (d.extent : ℤ) - 1
  globalDims := layout.along.map Dimension.global
  ghosts := layout.along.map Dimension.ghost
  dataspace := none
  readOnly := false

/-- The composite key of the index `by_any`. -/
def key (b : Block D) : ℤ × ℤ × ℤ := (b.source, b.iteration, b.id)

def setDataSpace (ds : Option D) (b : Block D) : Block D := { b with dataspace := ds }

/-- `Block::SetReadOnly`: nothing happens without data. -/
def setReadOnly (ro : Bool) (b : Block D) : Block D :=
  match b.dataspace with
  | none => b
  | some _ => { b with readOnly := ro }

/-- `Block::Move`: refused when the position has another number of dimensions. -/
def move (d : ℕ) (p : List ℤ) (b : Block D) : Block D :=
  if p.length ≠ d then b
  else { b with
    upperBounds := List.zipWith (· + ·) b.upperBounds (List.zipWith (· - ·) p b.lowerBounds)
    lowerBounds := p }

/-- The loop that copies a caller's bounds into the block, over `d` dimensions. -/
def setBounds (d : ℕ) (bs : Bounds) (b : Block D) : Block D :=
  { b with
    lowerBounds := bs.lbounds.take d
    upperBounds := bs.ubounds.take d
    globalDims := (bs.gbounds.take d).map toSize
    ghosts := (List.range d).map fun i => (bs.ghosts.getD (2 * i) 0, bs.ghosts.getD (2 * i + 1) 0) }

/-- `GetNumberOfItems`, with ghosts: the product is kept in an `int`. -/
def numberOfItems (b : Block D) : ℤ :=
  if b.upperBounds = [] then 0
  else (List.zipWith (fun u l => u - l + 1) b.upperBounds b.lowerBounds).foldl
    (fun result n => toInt (result * n)) 1

@[simp] theorem key_new (source iteration id : ℤ) (layout : Layout) :
    (new source iteration id layout : Block D).key = (source, iteration, id) := rfl

@[simp] theorem key_setDataSpace (ds : Option D) (b : Block D) : (b.setDataSpace ds).key = b.key := rfl

@[simp] theorem key_move (d : ℕ) (p : List ℤ) (b : Block D) : (b.move d p).key = b.key := by
  unfold move
  split <;> rfl

@[simp] theorem key_setReadOnly (ro : Bool) (b : Block D) : (b.setReadOnly ro).key = b.key := by
  unfold setReadOnly
  split <;> rfl

@[simp] theorem dataspace_setReadOnly (ro : Bool) (b : Block D) :
    (b.setReadOnly ro).dataspace = b.dataspace := by
  unfold setReadOnly
  split <;> rfl

@[simp] theorem key_setBounds (d : ℕ) (bs : Bounds) (b : Block D) :
    (b.setBounds d bs).key = b.key := rfl

end Block
end Damaris.Data
