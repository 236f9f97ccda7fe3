import Damaris.Lib.PointerSets
import Damaris.Lib.StepSystem

/-!
# Observers and observables

An `Observable` keeps plain pointers to its observers, and an `Observer` keeps plain pointers to what
it observes. The destructors take the pointers back on the other side. The public `RemoveObserver`
takes back only one of the two.
-/
namespace Damaris.Util
open PointerSets

universe u

variable {S O : Type u} [DecidableEq S] [DecidableEq O]

/-- The objects by their addresses, with their sets. -/
structure Objects (S O : Type u) where
  observers_ : Sets S O
  observed_ : Sets O S

/-- A smart pointer is null (`none`) or points to an observer. -/
inductive ObserverCall (S O : Type u)
  | newObserver (o : O)
  | newObservable (p : S)
  | addObserver (p : S) (obs : Option O)
  | removeObserver (p : S) (obs : Option O)
  | changed (p : S)
  | deleteObserver (o : O)
  | deleteObservable (p : S)

namespace Objects

def empty : Objects S O := ⟨fun _ => none, fun _ => none⟩

/-- What the callers keep to: a new object gets an address that is free, a member function is called
on an object that lives, and so does the object a smart pointer points to. -/
def enabled (w : Objects S O) : ObserverCall S O → Bool
  | .newObserver o => (w.observed_ o).isNone
  | .newObservable p => (w.observers_ p).isNone
  | .addObserver p obs | .removeObserver p obs =>
    (w.observers_ p).isSome && obs.all fun o => (w.observed_ o).isSome
  | .changed p | .deleteObservable p => (w.observers_ p).isSome
  | .deleteObserver o => (w.observed_ o).isSome

def addObserver (w : Objects S O) (p : S) : Option O → Option (Objects S O)
  | none => some w
  | some o => do
    let observed ← insertAt p w.observed_ o
    let observers ← insertAt o w.observers_ p
    return ⟨observers, observed⟩

/-- The public form. -/
def removeObserver (w : Objects S O) (p : S) : Option O → Option (Objects S O)
  | none => some w
  | some o => do
    let observers ← eraseAt o w.observers_ p
    return { w with observers_ := observers }

/-- `Notify` is the derived class's own; the pointer it is called through has to lead to an
observer. -/
def changed (w : Objects S O) (p : S) : Option (Objects S O) := do
  let observers ← w.observers_ p
  if observers.all fun o => (w.observed_ o).isSome then return w else none

/-- `~Observer`, which calls the private `RemoveObserver` of all it observes. -/
def deleteObserver (w : Objects S O) (o : O) : Option (Objects S O) := do
  let observed ← w.observed_ o
  let observers ← eraseAll o w.observers_ observed
  return ⟨observers, Function.update w.observed_ o none⟩

/-- `~Observable`, which calls `NotifyDestruction` of all its observers. -/
def deleteObservable (w : Objects S O) (p : S) : Option (Objects S O) := do
  let observers ← w.observers_ p
  let observed ← eraseAll p w.observed_ observers
  return ⟨Function.update w.observers_ p none, observed⟩

/-- `none` once a pointer is followed that leads to no object. -/
def call (w : Objects S O) : ObserverCall S O → Option (Objects S O)
  | .newObserver o => some { w with observed_ := Function.update w.observed_ o (some []) }
  | .newObservable p => some { w with observers_ := Function.update w.observers_ p (some []) }
  | .addObserver p obs => w.addObserver p obs
  | .removeObserver p obs => w.removeObserver p obs
  | .changed p => w.changed p
  | .deleteObserver o => w.deleteObserver o
  | .deleteObservable p => w.deleteObservable p

def step (w : Objects S O) (c : ObserverCall S O) : Option (Objects S O) :=
  if w.enabled c then w.call c else none

/-- What is promised of every state. -/
structure Sound (w : Objects S O) : Prop where
  symmetric : ∀ p o observers observed, w.observers_ p = some observers →
    w.observed_ o = some observed → (o ∈ observers ↔ p ∈ observed)
  observers_live : ∀ p observers, w.observers_ p = some observers →
    ∀ o ∈ observers, (w.observed_ o).isSome
  observed_live : ∀ o observed, w.observed_ o = some observed →
    ∀ p ∈ observed, (w.observers_ p).isSome
  follows : ∀ c, w.enabled c → (w.call c).isSome

/-- `RemoveObserver` is called only with an observer that is not registered there, or with none. -/
def Harmless (w : Objects S O) : ObserverCall S O → Prop
  | .removeObserver p (some o) => ¬ Points w.observers_ p o
  | _ => True

variable {w w' : Objects S O}

/-! ## One call -/

theorem call_addObserver {p : S} {obs : Option O} (h : Linked w.observers_ w.observed_)
    (hen : w.enabled (.addObserver p obs)) :
    ∃ w', w.call (.addObserver p obs) = some w' ∧ Linked w'.observers_ w'.observed_ := by
  cases obs with
  | none => exact ⟨w, rfl, h⟩
  | some o =>
    obtain ⟨hp, ho⟩ := Bool.and_eq_true_iff.mp hen
    obtain ⟨observers, hp⟩ := Option.isSome_iff_exists.mp hp
    obtain ⟨observed, ho⟩ := Option.isSome_iff_exists.mp ho
    have hcall : w.call (.addObserver p (some o)) =
        some ⟨Function.update w.observers_ p (some (observers.insert o)),
          Function.update w.observed_ o (some (observed.insert p))⟩ := by
      simp [call, addObserver, insertAt, hp, ho]
    exact ⟨_, hcall, h.insert hp ho⟩

theorem call_changed {p : S} (h : Linked w.observers_ w.observed_)
    (hen : w.enabled (.changed p)) : w.call (.changed p) = some w := by
  obtain ⟨observers, hp⟩ := Option.isSome_iff_exists.mp hen
  have hlive : ∀ o ∈ observers, (w.observed_ o).isSome := fun o ho =>
    ((h p o).mp ((points_iff hp).mpr ho)).live
  simp only [call, changed, hp]
  exact if_pos (List.all_eq_true.mpr hlive)

theorem call_deleteObserver {o : O} (h : Linked w.observers_ w.observed_)
    (hen : w.enabled (.deleteObserver o)) :
    ∃ w', w.call (.deleteObserver o) = some w' ∧ Linked w'.observers_ w'.observed_ := by
  obtain ⟨observed, ho⟩ := Option.isSome_iff_exists.mp hen
  obtain ⟨observers, hall, hlinked⟩ := h.destroy ho
  have hcall : w.call (.deleteObserver o) =
      some ⟨observers, Function.update w.observed_ o none⟩ := by
    simp [call, deleteObserver, ho, hall]
  exact ⟨_, hcall, hlinked⟩

theorem call_deleteObservable {p : S} (h : Linked w.observers_ w.observed_)
    (hen : w.enabled (.deleteObservable p)) :
    ∃ w', w.call (.deleteObservable p) = some w' ∧ Linked w'.observers_ w'.observed_ := by
  obtain ⟨observers, hp⟩ := Option.isSome_iff_exists.mp hen
  obtain ⟨observed, hall, hlinked⟩ := h.symm.destroy hp
  have hcall : w.call (.deleteObservable p) =
      some ⟨Function.update w.observers_ p none, observed⟩ := by
    simp [call, deleteObservable, hp, hall]
  exact ⟨_, hcall, hlinked.symm⟩

/-- No call follows a dangling pointer while the sets mirror each other, and every harmless one
leaves them so. -/
theorem call_linked {c : ObserverCall S O} (h : Linked w.observers_ w.observed_)
    (hen : w.enabled c) :
    ∃ w', w.call c = some w' ∧ (w.Harmless c → Linked w'.observers_ w'.observed_) := by
  cases c with
  | newObserver o => exact ⟨_, rfl, fun _ => (h.symm.create (Option.isNone_iff_eq_none.mp hen)).symm⟩
  | newObservable p => exact ⟨_, rfl, fun _ => h.create (Option.isNone_iff_eq_none.mp hen)⟩
  | addObserver p obs =>
    obtain ⟨w', hw', hlinked⟩ := call_addObserver h hen
    exact ⟨w', hw', fun _ => hlinked⟩
  | removeObserver p obs =>
    cases obs with
    | none => exact ⟨w, rfl, fun _ => h⟩
    | some o =>
      obtain ⟨observers, hp⟩ := Option.isSome_iff_exists.mp (Bool.and_eq_true_iff.mp hen).1
      obtain ⟨observers', hcall⟩ : ∃ observers', eraseAt o w.observers_ p = some observers' :=
        ⟨_, by rw [eraseAt, hp, Option.map_some]⟩
      have hremove : w.call (.removeObserver p (some o)) =
          some { w with observers_ := observers' } := by
        simp [call, removeObserver, hcall]
      refine ⟨_, hremove, fun hfree => ?_⟩
      obtain rfl := Option.some.inj (hcall.symm.trans (eraseAt_of_not_points hp hfree))
      exact h
  | changed p => exact ⟨w, call_changed h hen, fun _ => h⟩
  | deleteObserver o =>
    obtain ⟨w', hw', hlinked⟩ := call_deleteObserver h hen
    exact ⟨w', hw', fun _ => hlinked⟩
  | deleteObservable p =>
    obtain ⟨w', hw', hlinked⟩ := call_deleteObservable h hen
    exact ⟨w', hw', fun _ => hlinked⟩

theorem step_linked {c : ObserverCall S O} (h : Linked w.observers_ w.observed_)
    (hc : w.Harmless c) (hstep : w.step c = some w') : Linked w'.observers_ w'.observed_ := by
  unfold step at hstep
  split at hstep
  · rename_i hen
    obtain ⟨w'', hw'', hlinked⟩ := call_linked h hen
    obtain rfl := Option.some.inj (hw''.symm.trans hstep)
    exact hlinked hc
  · cases hstep

theorem Sound.of_linked (h : Linked w.observers_ w.observed_) : Sound w where
  symmetric p o observers observed hp ho := by
    rw [← points_iff hp, ← points_iff ho]
    exact h p o
  observers_live p observers hp o ho := ((h p o).mp ((points_iff hp).mpr ho)).live
  observed_live o observed ho p hp := ((h p o).mpr ((points_iff ho).mpr hp)).live
  follows c hen := by
    obtain ⟨w', hw', -⟩ := call_linked h hen
    rw [hw']
    rfl

/-- Taking back one side of a registration breaks the symmetry at once. -/
theorem harmless_of_sound {c : ObserverCall S O} (h : Linked w.observers_ w.observed_)
    (hs : ∀ w', w.step c = some w' → Sound w') : w.Harmless c := by
  unfold Harmless
  split
  · rename_i p o
    intro hpoints
    have hback := (h p o).mp hpoints
    obtain ⟨observers, hp, hmem⟩ := hpoints
    obtain ⟨observed, ho, hmem'⟩ := hback
    have hstep : w.step (.removeObserver p (some o)) = some { w with
        observers_ := Function.update w.observers_ p (some (observers.filter (· ≠ o))) } := by
      simp [step, enabled, call, removeObserver, eraseAt, hp, ho]
    have hsym := (hs _ hstep).symmetric p o _ observed (Function.update_self ..) ho
    simp [hmem'] at hsym
  · trivial

/-! ## Runs -/

/-- Every state of a run is sound exactly if `RemoveObserver` never takes a registration back. -/
theorem sound_iff_harmless (calls : List (ObserverCall S O)) :
    StepSystem.Always step Sound (empty : Objects S O) calls ↔
      StepSystem.Guarded step Harmless (empty : Objects S O) calls :=
  StepSystem.always_iff_guarded (I := fun w => Linked w.observers_ w.observed_)
    (fun _ _ _ h hc hstep => step_linked h hc hstep) (fun _ => Sound.of_linked)
    (fun _ _ => harmless_of_sound) linked_empty

/-- The observer is removed, the observable destroyed, and the observer's destructor then follows a
pointer to it. -/
theorem not_sound_removed :
    ∃ w : Objects Unit Unit,
      StepSystem.run step empty [.newObservable (), .newObserver (), .addObserver () (some ()),
        .removeObserver () (some ()), .deleteObservable ()] = some w ∧
      w.observers_ () = none ∧ w.observed_ () = some [()] ∧
      w.enabled (.deleteObserver ()) ∧ w.call (.deleteObserver ()) = none := by
  refine ⟨_, rfl, rfl, rfl, rfl, rfl⟩

end Objects

end Damaris.Util
