import Mathlib.Tactic

/-!
# Waiting for memory in a shared-memory segment

`Allocate`, `Deallocate` and `WaitAvailable` of `SharedMemorySegment` and of its
`CompositeShMem`, as the processes that share the segment interleave them. A
composite has `more + 1` blocks; a plain segment is the case `more = 0`. The
size manager of a composite is that of its first block, block 0, while each
block's `Deallocate` uses the block's own.
-/
namespace Damaris.Buffer

/-- Where a process is in its call. Between `scanning` and `blocked`, and again
after `woken`, it runs `WaitAvailable`; the last four belong to the `Deallocate`
of one block. -/
inductive Pc (more : ℕ)
  | idle
  | waitLock (size : ℕ)
  | scanning (size i max : ℕ)
  | blocked (size : ℕ)
  | woken (size : ℕ)
  | deallocLock (b : Fin (more + 1)) (amount : ℕ)
  | deallocating (b : Fin (more + 1)) (amount : ℕ)
  | notifying (b : Fin (more + 1))
  | leaving (b : Fin (more + 1))
  deriving DecidableEq

/-- The process holds block `b`'s lock. -/
def Pc.Holds {more : ℕ} (x : Pc more) (b : Fin (more + 1)) : Prop :=
  match x with
  | .scanning _ _ _ => b = 0
  | .deallocating b' _ => b = b'
  | .notifying b' => b = b'
  | .leaving b' => b = b'
  | _ => False

/-- The free memory and the lock of each block, and the processes. The waiters of
block 0's condition are the processes at `blocked`; no other condition has any. -/
structure SharedMemorySegment (more : ℕ) (P : Type*) where
  free : Fin (more + 1) → ℕ
  lock : Fin (more + 1) → Option P
  pc : P → Pc more

/-- `advance` is the next statement of a process's call; `spurious` a wake-up
that nobody caused. What an allocation takes from a block is its label's. -/
inductive ShmAction (more : ℕ) (P : Type*)
  | allocate (p : P) (b : Fin (more + 1)) (amount : ℕ)
  | waitAvailable (p : P) (size : ℕ)
  | deallocate (p : P) (b : Fin (more + 1)) (amount : ℕ)
  | advance (p : P)
  | spurious (p : P)

namespace SharedMemorySegment

variable {more : ℕ} {P : Type*} [DecidableEq P]

/-- A new segment: every lock is free and no process is in a call. -/
def create (free : Fin (more + 1) → ℕ) : SharedMemorySegment more P :=
  ⟨free, fun _ => none, fun _ => .idle⟩

/-- `GetFreeMemory`: the largest amount that one block has free. -/
def getFreeMemory (s : SharedMemorySegment more P) : ℕ := Finset.univ.sup s.free

def setPc (s : SharedMemorySegment more P) (p : P) (x : Pc more) : SharedMemorySegment more P :=
  { s with pc := Function.update s.pc p x }

def setFree (s : SharedMemorySegment more P) (b : Fin (more + 1)) (n : ℕ) :
    SharedMemorySegment more P :=
  { s with free := Function.update s.free b n }

/-- The constructor of `scoped_lock`, when the mutex is free. -/
def acquire (s : SharedMemorySegment more P) (b : Fin (more + 1)) (p : P) (x : Pc more) :
    Option (SharedMemorySegment more P) :=
  if s.lock b = none then
    some ({ s with lock := Function.update s.lock b (some p) }.setPc p x)
  else none

def release (s : SharedMemorySegment more P) (b : Fin (more + 1)) : SharedMemorySegment more P :=
  { s with lock := Function.update s.lock b none }

/-- `notify_all` on block `b`'s condition; all waiters wait on block 0's. -/
def notifyAll (s : SharedMemorySegment more P) (b : Fin (more + 1)) : SharedMemorySegment more P :=
  { s with pc := fun q =>
      match s.pc q with
      | .blocked size => if b = 0 then .woken size else .blocked size
      | x => x }

/-- The next statement of the call that process `p` is in. -/
def advance (s : SharedMemorySegment more P) (p : P) : Option (SharedMemorySegment more P) :=
  match s.pc p with
  | .idle => none
  | .waitLock size => s.acquire 0 p (.scanning size 0 0)
  | .scanning size i max =>
    if h : i < more + 1 then
      let m := s.free ⟨i, h⟩
      some (s.setPc p (.scanning size (i + 1) (if m > max then m else max)))
    else if size > max then some ((s.release 0).setPc p (.blocked size))
    else some ((s.release 0).setPc p .idle)
  | .blocked _ => none
  | .woken size => s.acquire 0 p (.scanning size 0 0)
  | .deallocLock b amount => s.acquire b p (.deallocating b amount)
  | .deallocating b amount => some ((s.setFree b (s.free b + amount)).setPc p (.notifying b))
  | .notifying b => some ((s.notifyAll b).setPc p (.leaving b))
  | .leaving b => some ((s.release b).setPc p .idle)

/-- `max` is the size manager's: `WaitAvailable` returns at once when it can
never be satisfied. -/
def step (max : ℕ) (s : SharedMemorySegment more P) :
    ShmAction more P → Option (SharedMemorySegment more P)
  | .allocate p b amount =>
    if s.pc p = .idle ∧ amount ≤ s.free b then some (s.setFree b (s.free b - amount)) else none
  | .waitAvailable p size =>
    if s.pc p = .idle then
      if size > max then some s else some (s.setPc p (.waitLock size))
    else none
  | .deallocate p b amount =>
    if s.pc p = .idle then some (s.setPc p (.deallocLock b amount)) else none
  | .advance p => s.advance p
  | .spurious p =>
    match s.pc p with
    | .blocked size => some (s.setPc p (.woken size))
    | _ => none

/-- No process sleeps although the memory it waits for is there, unless a
`Deallocate` of block 0 is about to notify. -/
def NoLostWakeup (s : SharedMemorySegment more P) : Prop :=
  ∀ p size, s.pc p = .blocked size → size ≤ s.getFreeMemory → ∃ q, s.pc q = .notifying 0

/-- The steps that can lose a wake-up, and when they do not. A block other than
the first gets memory back while nobody sleeps for that much (or block 0's
condition is about to be notified anyway); a waiter goes to sleep while no other
block has got enough since it looked there. -/
def Heard (s : SharedMemorySegment more P) : ShmAction more P → Prop
  | .advance p =>
    match s.pc p with
    | .deallocating b amount => b ≠ 0 → ∀ q size, s.pc q = .blocked size →
        size ≤ s.free b + amount → ∃ r, s.pc r = .notifying 0
    | .scanning size i max => more < i → size > max → ∀ b, b ≠ 0 → s.free b < size
    | _ => True
  | _ => True

end SharedMemorySegment
end Damaris.Buffer
