import Mathlib.Tactic
import Damaris.Data.GroupTrees
import Damaris.Client.RemoteClient
import Damaris.Server.Handlers

/-!
# The arrays of a message

The bounds in a `WriteMessage`, a `CommitMessage` or a `RemoteWriteMessage` lie in arrays of
`MAX_DIMENSIONS` entries. The senders fill as many as the layout has dimensions, and the handlers
copy as many out.
-/
namespace Damaris.Msg

open Data

def MAX_DIMENSIONS : ℕ := 16

/-- `array[i] = x`; `none` is a write outside the array. -/
def store {α : Type*} {n : ℕ} (v : Vector α n) (i : ℕ) (x : α) : Option (Vector α n) :=
  if h : i < n then some (v.set i x) else none

/-- `std::vector(array, array + count)`; `none` reads past the end of the array. -/
def copyOut {α : Type*} {n : ℕ} (v : Vector α n) (count : ℕ) : Option (List α) :=
  if count ≤ n then some (v.toList.take count) else none

/-- The four arrays as they lie in memory. -/
structure Arrays where
  ubounds : Vector ℤ MAX_DIMENSIONS
  lbounds : Vector ℤ MAX_DIMENSIONS
  gbounds : Vector ℤ MAX_DIMENSIONS
  ghosts : Vector ℕ (2 * MAX_DIMENSIONS)

namespace Arrays

/-- One round of the loop that the four senders share. -/
def put (a : Arrays) (i : ℕ) (d : DimBounds) : Option Arrays := do
  let lbounds ← store a.lbounds i d.lbound
  let ubounds ← store a.ubounds i d.ubound
  let gbounds ← store a.gbounds i d.gbound
  let ghosts ← store a.ghosts (2 * i) d.ghost.1
  let ghosts ← store ghosts (2 * i + 1) d.ghost.2
  some ⟨ubounds, lbounds, gbounds, ghosts⟩

/-- The loop from `i` on, with the values of the remaining rounds. -/
def fill (a : Arrays) (i : ℕ) : List DimBounds → Option Arrays
  | [] => some a
  | d :: dims => (a.put i d).bind fun a => a.fill (i + 1) dims

/-- The vectors that the three handlers make of a body with this `dim_`. -/
def read (a : Arrays) (dim : ℕ) : Option Bounds := do
  let lbounds ← copyOut a.lbounds dim
  let ubounds ← copyOut a.ubounds dim
  let gbounds ← copyOut a.gbounds dim
  let ghosts ← copyOut a.ghosts (2 * dim)
  some ⟨lbounds, ubounds, gbounds, ghosts⟩

/-- The bounds that a message is to carry are written inside its arrays, whatever these held before,
and read back from inside them. -/
def Carries (dims : List DimBounds) : Prop :=
  ∀ a : Arrays, ∃ a', a.fill 0 dims = some a' ∧ a'.read dims.length = some (bounds dims)

/-- The first entries of the arrays. -/
structure Holds (a : Arrays) (dims : List DimBounds) : Prop where
  ubounds : a.ubounds.toList.take dims.length = dims.map DimBounds.ubound
  lbounds : a.lbounds.toList.take dims.length = dims.map DimBounds.lbound
  gbounds : a.gbounds.toList.take dims.length = dims.map DimBounds.gbound
  ghosts : a.ghosts.toList.take (2 * dims.length) = dims.flatMap fun d => [d.ghost.1, d.ghost.2]

end Arrays

theorem store_of_lt {α : Type*} {n i : ℕ} (h : i < n) (v : Vector α n) (x : α) :
    store v i x = some (v.set i x) := dif_pos h

theorem store_of_le {α : Type*} {n i : ℕ} (h : n ≤ i) (v : Vector α n) (x : α) :
    store v i x = none := dif_neg (by omega)

theorem take_set {α : Type*} {n i : ℕ} (h : i < n) (v : Vector α n) (x : α) :
    (v.set i x).toList.take (i + 1) = v.toList.take i ++ [x] := by
  have hlen : i < v.toList.length := by simpa using h
  have htake : (v.toList.take i).length = i := by rw [List.length_take, min_eq_left hlen.le]
  rw [Vector.toList_set, List.take_set, List.take_succ_eq_append_getElem hlen,
    List.set_append_right _ _ htake.le, htake, Nat.sub_self, List.set_cons_zero]

namespace Arrays

variable {a : Arrays} {dims : List DimBounds}

theorem holds_nil (a : Arrays) : a.Holds [] := ⟨by simp, by simp, by simp, by simp⟩

/-- A round inside the arrays adds one dimension. -/
theorem Holds.put (h : a.Holds dims) (hlt : dims.length < MAX_DIMENSIONS) (d : DimBounds) :
    ∃ a', a.put dims.length d = some a' ∧ a'.Holds (dims ++ [d]) := by
  have hlt₀ : 2 * dims.length < 2 * MAX_DIMENSIONS := by omega
  have hlt₁ : 2 * dims.length + 1 < 2 * MAX_DIMENSIONS := by omega
  refine ⟨⟨a.ubounds.set dims.length d.ubound, a.lbounds.set dims.length d.lbound,
    a.gbounds.set dims.length d.gbound,
    (a.ghosts.set (2 * dims.length) d.ghost.1).set (2 * dims.length + 1) d.ghost.2⟩, ?_, ?_⟩
  · simp only [Arrays.put, store_of_lt hlt, store_of_lt hlt₀, store_of_lt hlt₁, Option.bind_eq_bind,
      Option.bind_some]
  · have hlen : (dims ++ [d]).length = dims.length + 1 := by simp
    refine ⟨?_, ?_, ?_, ?_⟩
    · rw [hlen, take_set hlt, h.ubounds, List.map_append, List.map_singleton]
    · rw [hlen, take_set hlt, h.lbounds, List.map_append, List.map_singleton]
    · rw [hlen, take_set hlt, h.gbounds, List.map_append, List.map_singleton]
    · have htwo : 2 * (dims.length + 1) = 2 * dims.length + 1 + 1 := by ring
      rw [hlen, htwo, take_set hlt₁, take_set hlt₀, h.ghosts, List.flatMap_append]
      simp

theorem Holds.fill {rest : List DimBounds} (h : a.Holds dims)
    (hlen : dims.length + rest.length ≤ MAX_DIMENSIONS) :
    ∃ a', a.fill dims.length rest = some a' ∧ a'.Holds (dims ++ rest) := by
  induction rest generalizing a dims with
  | nil => exact ⟨a, rfl, by rwa [List.append_nil]⟩
  | cons d rest ih =>
    rw [List.length_cons] at hlen
    obtain ⟨a₁, hput, h₁⟩ := h.put (by omega) d
    have hnext : (dims ++ [d]).length = dims.length + 1 := by simp
    obtain ⟨a', hfill, h'⟩ := ih h₁ (by omega)
    refine ⟨a', ?_, by rwa [List.append_assoc] at h'⟩
    rw [Arrays.fill, hput, Option.bind_some, ← hnext, hfill]

/-- The loop leaves the arrays when there are too many dimensions. -/
theorem fill_eq_none {i : ℕ} (hi : i ≤ MAX_DIMENSIONS) (h : MAX_DIMENSIONS < i + dims.length) :
    a.fill i dims = none := by
  induction dims generalizing a i with
  | nil => exact absurd h (by simpa using hi)
  | cons d dims ih =>
    rw [List.length_cons] at h
    rw [fill]
    obtain hlt | heq := hi.lt_or_eq
    · cases a.put i d with
      | none => rfl
      | some a₁ => exact ih hlt (by omega)
    · have hput : a.put i d = none := by
        rw [Arrays.put, store_of_le heq.ge]
        rfl
      rw [hput, Option.bind_none]

theorem Holds.read (h : a.Holds dims) (hlen : dims.length ≤ MAX_DIMENSIONS) :
    a.read dims.length = some (bounds dims) := by
  have hlen₂ : 2 * dims.length ≤ 2 * MAX_DIMENSIONS := by omega
  simp only [Arrays.read, copyOut, if_pos hlen, if_pos hlen₂, h.ubounds, h.lbounds, h.gbounds, h.ghosts]
  rfl

/-- A message carries its bounds exactly if the arrays have room for them. -/
theorem carries_iff : Carries dims ↔ dims.length ≤ MAX_DIMENSIONS := by
  constructor
  · intro h
    by_contra hlt
    obtain ⟨a', hfill, -⟩ := h ⟨default, default, default, default⟩
    rw [fill_eq_none (Nat.zero_le _) (by omega)] at hfill
    cases hfill
  · intro hlen a
    have hroom : ([] : List DimBounds).length + dims.length ≤ MAX_DIMENSIONS := by simpa using hlen
    obtain ⟨a', hfill, h'⟩ := (holds_nil a).fill hroom
    exact ⟨a', hfill, h'.read hlen⟩

end Arrays

/-! ## The senders -/

variable {A : Type}

/-- What `RemoteClient::Write` puts into its message; `p` is what the position reads as, also past
its end. -/
def remoteDims (l : Layout) (p : ℕ → ℤ) : List DimBounds :=
  l.along.zipIdx.map fun d => RemoteClient.dimBounds d.1 (p d.2)

/-- `RemoteClient::Commit`; `size` is the size of a dataspace. -/
def remoteCommit (size : A → ℕ) (c : Client A) (id block iteration : ℤ) :
    Client A × Status × Option RemoteWriteMessage :=
  match c.search id block with
  | .error e => (c, e, none)
  | .ok v =>
    match v.getBlock c.source iteration block with
    | none => (c, .BLOCK_NOT_FOUND, none)
    | some b =>
      ({ c with vars := c.vars.set id (v.store (b.setReadOnly true)) }, .OK, some
        { id := id, source := c.source, iteration := c.iteration, block := block,
          dims := dimsOf v.layout.dimensions b, size := b.dataspace.elim 0 size })

inductive Sender
  | write
  | commit
  | remoteWrite
  | remoteCommit
  deriving DecidableEq

/-- The bounds that a call puts into its message, for a variable with this layout. -/
inductive Sends (A : Type) (l : Layout) : Sender → List DimBounds → Prop
  | write {c : Client A} {id block : ℤ} {buffer : Option (Buffer Unit A)} {v : Variable A}
      {wm : WriteMessage (Option A)} (hv : c.vars id = some v) (hl : v.layout = l)
      (h : (c.write id block buffer).2.2 = some wm) : Sends A l .write wm.dims
  | commit {c : Client A} {id block iteration : ℤ} {v : Variable A}
      {wm : WriteMessage (Option A)} (hv : c.vars id = some v) (hl : v.layout = l)
      (h : (c.commit id block iteration).2.2 = some wm) : Sends A l .commit wm.dims
  | remoteWrite {c : Client A} {id block : ℤ} {v : Variable A} (hl : v.layout = l)
      (h : c.search id block = .ok v) (p : ℕ → ℤ) : Sends A l .remoteWrite (remoteDims l p)
  | remoteCommit {size : A → ℕ} {c : Client A} {id block iteration : ℤ} {v : Variable A}
      {rwm : RemoteWriteMessage} (hv : c.vars id = some v) (hl : v.layout = l)
      (h : (Msg.remoteCommit size c id block iteration).2.2 = some rwm) :
      Sends A l .remoteCommit rwm.dims

theorem Sends.length {l : Layout} {s : Sender} {dims : List DimBounds} (h : Sends A l s dims) :
    dims.length = l.dimensions := by
  cases h with
  | @write c id block buffer v wm hv hl hout =>
    obtain ⟨-, hspec⟩ : Client.Keeps (fun _ => none) c (c.write id block buffer).1 ∧ _ :=
      Client.write_spec rfl
    obtain ⟨v', hv', hlen⟩ := (hspec wm hout).1.dims
    rw [hlen, Option.some.inj (hv'.symm.trans hv), hl]
  | @commit c id block iteration v wm hv hl hout =>
    obtain ⟨-, -, hspec⟩ : Client.Keeps (fun _ => none) c (c.commit id block iteration).1 ∧ _ ∧ _ :=
      Client.commit_spec rfl
    obtain ⟨v', hv', hlen⟩ := (hspec wm hout).1.dims
    rw [hlen, Option.some.inj (hv'.symm.trans hv), hl]
  | remoteWrite hl hsearch p => simp [remoteDims, Layout.dimensions]
  | @remoteCommit size c id block iteration v rwm hv hl hout =>
    unfold Msg.remoteCommit at hout
    cases hs : c.search id block with
    | error e =>
      rw [hs] at hout
      cases hout
    | ok u =>
      rw [hs] at hout
      dsimp only at hout
      cases hb : u.getBlock c.source iteration block with
      | none =>
        rw [hb] at hout
        cases hout
      | some b =>
        rw [hb] at hout
        cases hout
        rw [length_dimsOf, Option.some.inj ((Client.search_ok hs).symm.trans hv), hl]

/-- A client with one variable of this layout. -/
def oneClient (l : Layout) : Client Unit :=
  ⟨0, 0, 1, Variables.new fun id => if id = 0 then some (true, l) else none, false⟩

/-- A buffer that always has room. -/
def roomy : Buffer Unit Unit := ⟨fun _ => some (some ()), fun _ => some (some ()), fun _ _ => some ()⟩

theorem exists_sends (l : Layout) (s : Sender) : ∃ dims, Sends Unit l s dims := by
  have hnew : (oneClient l).vars 0 = some (Variable.new true l) := rfl
  cases s with
  | write => exact ⟨_, @Sends.write _ l (oneClient l) 0 0 (some roomy) _ _ hnew rfl rfl⟩
  | commit =>
    exact ⟨_, @Sends.commit _ l ((oneClient l).alloc 0 0 (some roomy)).1 0 0 0 _ _ rfl rfl rfl⟩
  | remoteWrite => exact ⟨_, @Sends.remoteWrite _ l (oneClient l) 0 0 _ rfl rfl fun _ => 0⟩
  | remoteCommit =>
    exact ⟨_, @Sends.remoteCommit _ l (fun _ => 0) ((oneClient l).alloc 0 0 (some roomy)).1 0 0 0
      _ _ rfl rfl rfl⟩

/-- Every message about a variable of the layout, by whichever of the four calls, stays inside its
arrays at both ends exactly if the layout has no more than `MAX_DIMENSIONS` dimensions. -/
theorem sends_carry_iff (l : NamedLayout) (s : Sender) :
    (∀ (A : Type) (layout : Layout), layout.dimensions = l.dimensions →
      ∀ dims, Sends A layout s dims → Arrays.Carries dims) ↔ l.dimensions ≤ MAX_DIMENSIONS := by
  constructor
  · intro h
    have hlen : (Layout.mk 1 (List.replicate l.dimensions ⟨1, 1, (0, 0)⟩)).dimensions =
        l.dimensions := List.length_replicate
    obtain ⟨dims, hsends⟩ := exists_sends ⟨1, List.replicate l.dimensions ⟨1, 1, (0, 0)⟩⟩ s
    rw [← hlen, ← hsends.length]
    exact Arrays.carries_iff.mp (h Unit _ hlen dims hsends)
  · intro hle A layout hl dims hsends
    rw [Arrays.carries_iff, hsends.length, hl]
    exact hle

/-- Seventeen dimensions of one element each. -/
def seventeen : LayoutModel :=
  ⟨"l".toList, "1,1,1,1,1,1,1,1,1,1,1,1,1,1,1,1,1".toList, "#".toList, "#".toList, .c⟩

/-- `BoxLayout::New` accepts more dimensions than a message has room for. -/
theorem accepted_overflows : ¬ ∀ (default : Language)
    (params : Str → Option BoxLayout.TypedParameter) (t : Str → ℤ)
    (mdl : BoxLayout.ValueType ⊕ LayoutModel) (l : NamedLayout),
    madeLayout default params t mdl = some l → ∀ (s : Sender) (A : Type) (layout : Layout),
      layout.dimensions = l.dimensions →
      ∀ dims, Sends A layout s dims → Arrays.Carries dims := by
  intro h
  have hmade : madeLayout .c (fun _ => none) (fun _ => 0) (.inr seventeen) =
      some (.box seventeen ⟨List.replicate 17 1, List.replicate 17 1, List.replicate 17 (0, 0)⟩) := by
    decide +kernel
  obtain ⟨dims, hsends⟩ := exists_sends ⟨1, List.replicate 17 ⟨1, 1, (0, 0)⟩⟩ .write
  have hcarries := h _ _ _ _ _ hmade .write Unit _ rfl dims hsends
  rw [Arrays.carries_iff, hsends.length] at hcarries
  exact absurd hcarries (by decide)

end Damaris.Msg
