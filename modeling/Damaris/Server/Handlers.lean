import Mathlib.Tactic
import Damaris.Data.BlockIndex
import Damaris.Msg.Signals

/-!
# The server's handlers of blocks

`OnWrite`, `OnRemoteWrite`, `OnCommit` and `OnClear`, each from the point where
the body has been received. `none` is behaviour that the source leaves
undefined: a null block dereferenced, or a vector read past its end.
-/
namespace Damaris

open Damaris.Data Damaris.Msg

/-- The server's view of a shared buffer: a handle stands for its address. -/
def shared {A : Type*} : Buffer (Option A) A := ⟨fun _ => none, fun _ => none, fun h _ => h⟩

namespace Variables

variable {H D : Type*}

/-- What the handlers of `WRITE` and `COMMIT` share: the block retrieved for a
body, null for an unknown variable too. -/
def retrieve (vs : Variables D) (buffer : Option (Buffer H D)) (source : ℤ)
    (wr : WriteMessage H) : Option (Variables D × Option (Block D)) :=
  match vs wr.id with
  | none => some (vs, none)
  | some v =>
    (v.retrieveBounds buffer source wr.iteration wr.block (bounds wr.dims) wr.handle).map
      fun x => (vs.set wr.id x.1, x.2)

/-- `Server::OnWrite`: the block whose data the server now owns, if there is one. -/
def onWrite (vs : Variables D) (buffer : Option (Buffer H D)) (source : ℤ) (wr : WriteMessage H) :
    Option (Variables D × Option (Block D)) :=
  vs.retrieve buffer source wr

/-- `Server::OnRemoteWrite`. `granted` is what the blocking allocation returns
in the end, and `recv` what receiving the `DATA` message makes of a dataspace;
the flag says whether it was received at all. -/
def onRemoteWrite (vs : Variables D) (granted : Option (ℕ → Option D)) (source : ℤ)
    (rwm : RemoteWriteMessage) (recv : D → D) : Option (Variables D × Bool) :=
  match vs rwm.id with
  | none => some (vs, false)
  | some v =>
    let buffer : Option (Buffer Unit D) := granted.map fun g =>
      ⟨fun n => some (g n), fun n => some (g n), fun _ _ => none⟩
    (v.allocateFixedSize buffer source rwm.iteration rwm.block (bounds rwm.dims)).map fun x =>
      match x with
      | (v', none) => (vs.set rwm.id v', false)
      | (v', some b) =>
        match b.dataspace with
        | none => (vs.set rwm.id v', false)
        | some d => (vs.set rwm.id (v'.store (b.setDataSpace (some (recv d)))), true)

/-- `Server::OnCommit`: after the error message for a null block, the block is
dereferenced all the same. -/
def onCommit (vs : Variables D) (buffer : Option (Buffer H D)) (source : ℤ) (wr : WriteMessage H) :
    Option (Variables D) :=
  match vs wr.id with
  | none => some vs
  | some v =>
    match v.retrieveBounds buffer source wr.iteration wr.block (bounds wr.dims) wr.handle with
    | none => none
    | some (_, none) => none
    | some (v', some b) => some (vs.set wr.id (v'.store (b.setReadOnly true)))

/-- `Server::OnClear`, as `OnCommit`. -/
def onClear (vs : Variables D) (source : ℤ) (m : ClearMessage) : Option (Variables D) :=
  match vs m.id with
  | none => some vs
  | some v =>
    match v.getBlock source m.iteration m.block with
    | none => none
    | some b => some (vs.set m.id (v.store (b.setReadOnly false)))

/-! ## What a body leads to -/

section Cases

variable {vs vs' : Variables D} {buffer : Option (Buffer H D)} {source : ℤ} {wr : WriteMessage H}

theorem onWrite_cases {x : Variables D × Option (Block D)}
    (h : vs.onWrite buffer source wr = some x) : x.1 = vs ∧ vs wr.id = none ∨
      ∃ v y, vs wr.id = some v ∧ x.1 = vs.set wr.id y.1 ∧
        v.retrieveBounds buffer source wr.iteration wr.block (bounds wr.dims) wr.handle = some y := by
  unfold onWrite retrieve at h
  cases hv : vs wr.id with
  | none =>
    rw [hv] at h
    obtain rfl := Option.some.inj h
    exact .inl ⟨rfl, rfl⟩
  | some v =>
    rw [hv] at h
    obtain ⟨y, hy, rfl⟩ := Option.map_eq_some_iff.mp h
    exact .inr ⟨v, y, rfl, rfl, hy⟩

theorem onCommit_cases (h : vs.onCommit buffer source wr = some vs') : vs' = vs ∧ vs wr.id = none ∨
    ∃ v v' b, vs wr.id = some v ∧ vs' = vs.set wr.id (v'.store (b.setReadOnly true)) ∧
      v.retrieveBounds buffer source wr.iteration wr.block (bounds wr.dims) wr.handle =
        some (v', some b) := by
  unfold onCommit at h
  cases hv : vs wr.id with
  | none =>
    rw [hv] at h
    exact .inl ⟨(Option.some.inj h).symm, rfl⟩
  | some v =>
    rw [hv] at h
    simp only at h
    rcases hret : v.retrieveBounds buffer source wr.iteration wr.block (bounds wr.dims)
      wr.handle with _ | ⟨v', _ | b⟩
    · rw [hret] at h
      exact absurd h nofun
    · rw [hret] at h
      exact absurd h nofun
    · rw [hret] at h
      exact .inr ⟨v, v', b, rfl, (Option.some.inj h).symm, hret⟩

theorem onClear_cases {m : ClearMessage} (h : vs.onClear source m = some vs') :
    vs' = vs ∧ vs m.id = none ∨
      ∃ v b, vs m.id = some v ∧ vs' = vs.set m.id (v.store (b.setReadOnly false)) ∧
        v.getBlock source m.iteration m.block = some b := by
  unfold onClear at h
  cases hv : vs m.id with
  | none =>
    rw [hv] at h
    exact .inl ⟨(Option.some.inj h).symm, rfl⟩
  | some v =>
    rw [hv] at h
    simp only at h
    cases hget : v.getBlock source m.iteration m.block with
    | none =>
      rw [hget] at h
      exact absurd h nofun
    | some b =>
      rw [hget] at h
      exact .inr ⟨v, b, rfl, (Option.some.inj h).symm, hget⟩

end Cases

/-- With a body's bounds `Retrieve` is defined. It returns a block exactly when
the dimensions are right, the key is free and the handle has an address. -/
theorem retrieveBounds_message (v : Variable D) (buffer : Buffer H D) (source iteration bid : ℤ)
    (dims : List DimBounds) (h : H) :
    ∃ v' r, v.retrieveBounds (some buffer) source iteration bid (bounds dims) h = some (v', r) ∧
      (r ≠ none ↔ dims.length = v.layout.dimensions ∧ v.getBlock source iteration bid = none ∧
        buffer.link h (v.boundsSize (bounds dims)) ≠ none) ∧
      ∀ b, r = some b → b.dataspace = buffer.link h (v.boundsSize (bounds dims)) := by
  have hplace : ∀ (w : Variable D) (b : Block D), (w.place b).dataspace = b.dataspace := by
    intro w b
    unfold Variable.place
    split
    · rfl
    · unfold Block.move
      split <;> rfl
  unfold Variable.retrieveBounds
  rw [length_lbounds, length_ubounds]
  by_cases hd : dims.length = v.layout.dimensions
  · rw [if_neg (by simp [hd])]
    unfold Variable.retrieve
    simp only
    by_cases hget : (v.getBlock source iteration bid).isSome
    · rw [if_pos hget]
      refine ⟨v, none, rfl, ?_, nofun⟩
      have hne : v.getBlock source iteration bid ≠ none := Option.isSome_iff_ne_none.mp hget
      simp [hne]
    · rw [if_neg hget]
      have hnone := Option.not_isSome_iff_eq_none.mp hget
      cases hlink : buffer.link h (v.boundsSize (bounds dims)) with
      | none => exact ⟨v, none, rfl, by simp, nofun⟩
      | some ds =>
        have hcovers : (bounds dims).Covers v.layout.dimensions := hd ▸ covers_bounds dims
        simp only
        rw [if_pos hcovers]
        refine ⟨_, _, rfl, by simp [hd, hnone], fun b hb => ?_⟩
        obtain rfl := Option.some.inj hb
        exact hplace _ _
  · rw [if_pos (Or.inl hd)]
    exact ⟨v, none, rfl, by simp [hd], nofun⟩

/-- With a buffer `AllocateFixedSize` returns a block exactly when the key is
free; the block's data is what was granted for some size. -/
theorem allocateFixedSize_message (v : Variable D) (granted : Option (ℕ → Option D))
    (source iteration bid : ℤ) {bs : Bounds} {x : Variable D × Option (Block D)}
    (hx : v.allocateFixedSize (granted.map fun g => (⟨fun n => some (g n), fun n => some (g n),
      fun _ _ => none⟩ : Buffer Unit D)) source iteration bid bs = some x) :
    (x.2 ≠ none ↔ granted ≠ none ∧ v.getBlock source iteration bid = none) ∧
      ∀ b, x.2 = some b → ∃ g n, granted = some g ∧ b.dataspace = g n := by
  have hnorm : v.getBlock source (v.normalise iteration) bid = v.getBlock source iteration bid := by
    rw [Variable.getBlock, Variable.normalise_normalise, Variable.getBlock]
  unfold Variable.allocateFixedSize at hx
  split_ifs at hx
  obtain rfl := Option.some.inj hx
  unfold Variable.allocateWith
  cases granted with
  | none => exact ⟨by simp, fun b hb => absurd hb.symm (Option.some_ne_none b)⟩
  | some g =>
    simp only [Option.map_some, hnorm]
    by_cases hget : (v.getBlock source iteration bid).isSome
    · rw [if_pos hget]
      have hne : v.getBlock source iteration bid ≠ none := Option.isSome_iff_ne_none.mp hget
      exact ⟨by simp [hne], fun b hb => absurd hb.symm (Option.some_ne_none b)⟩
    · rw [if_neg hget]
      have hnone := Option.not_isSome_iff_eq_none.mp hget
      refine ⟨by simp [hnone], fun b hb => ?_⟩
      obtain rfl := Option.some.inj hb
      exact ⟨_, _, rfl, rfl⟩

end Variables
end Damaris
