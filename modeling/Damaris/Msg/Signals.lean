import Mathlib.Tactic
import Damaris.Data.Block

/-!
# Signals

The headers and bodies that clients send to their server. A body's arrays of
bounds have `dim_` entries in use; here they are one list of that length.
-/
namespace Damaris.Msg

open Damaris.Data

/-- `SignalType`, less the prefix `DAMARIS_SIG_`. -/
inductive SignalType
  | CONNECT
  | STOP
  | NEXT_ITERATION
  | NEXT_ITERATION_ERR
  | CALL_ACTION
  | BCAST_ACTION
  | WRITE
  | REMOTE_WRITE
  | COMMIT
  | CLEAR
  deriving DecidableEq, Repr

/-- The signals whose header is followed by a body. -/
def SignalType.bearsBody : SignalType → Bool
  | .CONNECT | .STOP | .NEXT_ITERATION | .NEXT_ITERATION_ERR => false
  | _ => true

structure EventMessage where
  id : ℤ
  source : ℤ
  iteration : ℤ
  deriving DecidableEq

/-- The bounds of a block along one dimension. -/
structure DimBounds where
  ubound : ℤ
  lbound : ℤ
  gbound : ℤ
  ghost : ℕ × ℕ
  deriving DecidableEq

/-- `WriteMessage`, which is also `CommitMessage`. -/
structure WriteMessage (H : Type*) where
  id : ℤ
  source : ℤ
  iteration : ℤ
  block : ℤ
  dims : List DimBounds
  handle : H
  deriving DecidableEq

structure RemoteWriteMessage where
  id : ℤ
  source : ℤ
  iteration : ℤ
  block : ℤ
  dims : List DimBounds
  size : ℕ
  deriving DecidableEq

structure ClearMessage where
  id : ℤ
  source : ℤ
  iteration : ℤ
  block : ℤ
  deriving DecidableEq

/-- The vectors a handler builds from a body. -/
def bounds (dims : List DimBounds) : Bounds where
  lbounds := dims.map DimBounds.lbound
  ubounds := dims.map DimBounds.ubound
  gbounds := dims.map DimBounds.gbound
  ghosts := dims.flatMap fun d => [d.ghost.1, d.ghost.2]

@[simp] theorem length_lbounds (dims : List DimBounds) :
    (bounds dims).lbounds.length = dims.length := by simp [bounds]

@[simp] theorem length_ubounds (dims : List DimBounds) :
    (bounds dims).ubounds.length = dims.length := by simp [bounds]

/-- A body's vectors are never too short for its own number of dimensions. -/
theorem covers_bounds (dims : List DimBounds) : (bounds dims).Covers dims.length := by
  refine ⟨by simp, by simp, by simp [bounds], ?_⟩
  simp [bounds, List.length_flatMap, Nat.mul_comm]

/-- The bounds a client reads off a block, one dimension after another. -/
def dimsOf {D : Type*} (d : ℕ) (b : Block D) : List DimBounds :=
  (List.range d).map fun i =>
    { ubound := b.upperBounds.getD i 0
      lbound := b.lowerBounds.getD i 0
      gbound := (b.globalDims.getD i 0 : ℕ)
      ghost := b.ghosts.getD i (0, 0) }

@[simp] theorem length_dimsOf {D : Type*} (d : ℕ) (b : Block D) : (dimsOf d b).length = d := by
  simp [dimsOf]

end Damaris.Msg
