import Mathlib.Tactic

/-!
# `DataSpace`

The handles of one process on its memory regions. `ref_count_` and
`data_owner_` are two shared pointers that are always set together; here both
are reached through one control number, and `none` stands for the null pointers
that copying an unlinked handle leaves behind. A region is an owner together
with an address, and the owner is alive throughout.
-/
namespace Damaris.Buffer

/-- A `DataSpace` object; `IsLinked` is the second constructor. -/
inductive DataSpace (R : Type*)
  | unlinked (size : ℕ) (control : Option ℕ)
  | linked (address : R) (size : ℕ) (control : ℕ)
  deriving DecidableEq

namespace DataSpace

variable {R : Type*}

/-- `GetData`. -/
def getData : DataSpace R → Option R
  | .unlinked _ _ => none
  | .linked g _ _ => some g

def getSize : DataSpace R → ℕ
  | .unlinked n _ => n
  | .linked _ n _ => n

def control : DataSpace R → Option ℕ
  | .unlinked _ c => c
  | .linked _ _ c => some c

end DataSpace

/-- The live handles `ι`, what they hold, and the counters and ownership flags
they share. `deallocated` records the calls of `Deallocate`, oldest first. -/
structure Heap (ι R : Type*) where
  live : Finset ι
  obj : ι → DataSpace R
  count : ℕ → ℤ
  owns : ℕ → Bool
  next : ℕ
  deallocated : List R

inductive Operation (ι R : Type*)
  | default (o : ι)
  | construct (o : ι) (address : Option R) (size : ℕ)
  | copy (o d : ι)
  | assign (o d : ι)
  | link (o : ι) (address : Option R) (size : ℕ)
  | unlink (o : ι)
  | lose (o : ι)
  | gain (o : ι)
  | destroy (o : ι)

namespace Heap

variable {ι R : Type*} [DecidableEq ι] [DecidableEq R]

def initial : Heap ι R := ⟨∅, fun _ => .unlinked 0 none, fun _ => 0, fun _ => false, 0, []⟩

def setObj (h : Heap ι R) (o : ι) (d : DataSpace R) : Heap ι R :=
  { h with obj := Function.update h.obj o d }

def setCount (h : Heap ι R) (c : ℕ) (n : ℤ) : Heap ι R :=
  { h with count := Function.update h.count c n }

def setOwns (h : Heap ι R) (c : ℕ) (b : Bool) : Heap ι R :=
  { h with owns := Function.update h.owns c b }

/-- A new object, not yet linked. -/
def create (h : Heap ι R) (o : ι) (d : DataSpace R) : Heap ι R :=
  { h with live := insert o h.live, obj := Function.update h.obj o d }

def remove (h : Heap ι R) (o : ι) : Heap ι R := { h with live := h.live.erase o }

/-- `new int(n)` and `new bool(b)`, under the control number `h.next`. -/
def newControl (h : Heap ι R) (n : ℤ) (b : Bool) : Heap ι R :=
  { h with
    count := Function.update h.count h.next n
    owns := Function.update h.owns h.next b
    next := h.next + 1 }

/-- The object a constructor or `Link` leaves: `IsLinked` only asks for the address. -/
def attached (address : Option R) (size : ℕ) (control : ℕ) : DataSpace R :=
  match address with
  | none => .unlinked size (some control)
  | some g => .linked g size control

/-- `Unlink`: the address survives unless the count has reached zero. -/
def unlink (h : Heap ι R) (o : ι) : Heap ι R :=
  match h.obj o with
  | .unlinked _ c => h.setObj o (.unlinked 0 c)
  | .linked g _ c =>
    let h := h.setCount c (h.count c - 1)
    if h.count c = 0 then
      { h.setObj o (.unlinked 0 (some c)) with
        deallocated := h.deallocated ++ if h.owns c then [g] else [] }
    else h.setObj o (.linked g 0 c)

/-- `Swap`: what the object held before is overwritten, not unlinked, when the
source is linked. -/
def swap (h : Heap ι R) (o d : ι) : Heap ι R :=
  match h.obj d with
  | .linked g n c => (h.setObj o (.linked g n c)).setCount c (h.count c + 1)
  | .unlinked _ _ =>
    match h.obj o with
    | .linked _ _ _ => h.unlink o
    | .unlinked _ _ => h

/-- `LoseDataOwnership` and `GainDataOwnership` write through `data_owner_`;
`none` is the null pointer dereferenced. -/
def setOwnership (h : Heap ι R) (o : ι) (b : Bool) : Option (Heap ι R) :=
  (h.obj o).control.map fun c => h.setOwns c b

/-- Objects are constructed once and used while they live. -/
def Enabled (h : Heap ι R) : Operation ι R → Prop
  | .default o => o ∉ h.live
  | .construct o _ _ => o ∉ h.live
  | .copy o d => o ∉ h.live ∧ d ∈ h.live
  | .assign o d => o ∈ h.live ∧ d ∈ h.live
  | .link o _ _ => o ∈ h.live
  | .unlink o => o ∈ h.live
  | .lose o => o ∈ h.live
  | .gain o => o ∈ h.live
  | .destroy o => o ∈ h.live

instance (h : Heap ι R) : (a : Operation ι R) → Decidable (h.Enabled a)
  | .default o => inferInstanceAs (Decidable (o ∉ h.live))
  | .construct o _ _ => inferInstanceAs (Decidable (o ∉ h.live))
  | .copy o d => inferInstanceAs (Decidable (o ∉ h.live ∧ d ∈ h.live))
  | .assign o d => inferInstanceAs (Decidable (o ∈ h.live ∧ d ∈ h.live))
  | .link o _ _ => inferInstanceAs (Decidable (o ∈ h.live))
  | .unlink o => inferInstanceAs (Decidable (o ∈ h.live))
  | .lose o => inferInstanceAs (Decidable (o ∈ h.live))
  | .gain o => inferInstanceAs (Decidable (o ∈ h.live))
  | .destroy o => inferInstanceAs (Decidable (o ∈ h.live))

/-- The operations as the class defines them. -/
def apply (h : Heap ι R) : Operation ι R → Option (Heap ι R)
  | .default o => some ((h.create o (.unlinked 0 (some h.next))).newControl 1 false)
  | .construct o address size =>
    some ((h.create o (attached address size h.next)).newControl (if address = none then 0 else 1) true)
  | .copy o d => some ((h.create o (.unlinked 0 none)).swap o d)
  | .assign o d => some (h.swap o d)
  | .link o address size =>
    let h := h.unlink o
    some ((h.setObj o (attached address size h.next)).newControl 1 true)
  | .unlink o => some (h.unlink o)
  | .lose o => h.setOwnership o false
  | .gain o => h.setOwnership o true
  | .destroy o => some ((h.unlink o).remove o)

def step (h : Heap ι R) (a : Operation ι R) : Option (Heap ι R) :=
  if h.Enabled a then h.apply a else none

end Heap
end Damaris.Buffer
