import Damaris.Client.RemoteClient

/-!
# Three computations of one size

A layout multiplies its extents in `size_t`, a block the extents between its bounds
in `int`. A remote write announces the first product, and the server allocates and
receives the second.
-/
namespace Damaris

open Data Msg

namespace Data

/-- `BoxLayout::GetNumberOfItems`: ghosts are taken off in `size_t`, too. -/
def Layout.numberOfItems (l : Layout) (withGhost : Bool) : ℕ :=
  l.along.foldl (fun s d =>
    if withGhost then toSize (s * d.extent)
    else toSize (s * toSize (toSize (d.extent - d.ghost.1) - d.ghost.2))) 1

/-- The extents between the bounds of a block. -/
def Block.extents {D : Type*} (b : Block D) : List ℤ :=
  List.zipWith (fun u l => u - l + 1) b.upperBounds b.lowerBounds

/-- A block whose bounds are in order along every dimension, with no more items than 63 bits count. -/
structure Block.Countable {D : Type*} (b : Block D) : Prop where
  lengths : b.lowerBounds.length = b.upperBounds.length
  ordered : ∀ e ∈ b.extents, 0 < e
  fits : b.extents.prod < 2 ^ 63

/-! ### Products that wrap around -/

theorem foldl_toInt (x : ℤ) (es : List ℤ) :
    es.foldl (fun result n => toInt (result * n)) (toInt x) = toInt (x * es.prod) := by
  induction es generalizing x with
  | nil => simp
  | cons e es ih =>
    have hstep : toInt (toInt x * e) = toInt (x * e) := Int.bmod_mul_bmod
    rw [List.foldl_cons, hstep, ih, List.prod_cons, mul_assoc]

theorem toSize_mul (x y : ℤ) : toSize (toSize x * y) = toSize (x * y) := by
  have hcast : ((toSize x : ℕ) : ℤ) = x % 2 ^ 64 := by
    unfold toSize
    omega
  rw [hcast, toSize, toSize, Int.mul_emod, Int.emod_emod_of_dvd _ dvd_rfl, ← Int.mul_emod]

theorem toSize_of_lt {n : ℕ} (h : n < 2 ^ 64) : toSize n = n := by
  unfold toSize
  omega

theorem toInt_eq_self_iff {x : ℤ} (h : 0 ≤ x) : toInt x = x ↔ x < 2 ^ 31 := by
  unfold toInt
  constructor
  · intro hx
    have hlt := Int.bmod_lt (x := x) (m := 2 ^ 32) (by norm_num)
    rw [hx] at hlt
    norm_num at hlt
    omega
  · intro hlt
    exact Int.bmod_eq_of_le (by omega) (by omega)

theorem Layout.numberOfItems_eq (l : Layout) :
    l.numberOfItems true = toSize (l.along.map Dimension.extent).prod := by
  have hfold : ∀ (n : ℕ) (ds : List Dimension), ds.foldl (fun s d => toSize (s * d.extent)) (toSize n) =
      toSize ((n * (ds.map Dimension.extent).prod : ℕ) : ℤ) := by
    intro n ds
    induction ds generalizing n with
    | nil => simp
    | cons d ds ih =>
      have hstep : toSize ((toSize n : ℕ) * (d.extent : ℤ)) = toSize ((n * d.extent : ℕ) : ℤ) := by
        rw [toSize_mul, Nat.cast_mul]
      rw [List.foldl_cons, hstep, ih, List.map_cons, List.prod_cons, mul_assoc]
  have hone : toSize ((1 : ℕ) : ℤ) = 1 := rfl
  have h := hfold 1 l.along
  rw [hone, one_mul] at h
  exact h

/-- A block counts its items right exactly when it has a dimension, and an `int` holds the count. -/
theorem Block.numberOfItems_eq_iff {D : Type*} {b : Block D} (h : b.Countable) :
    b.numberOfItems = b.extents.prod ↔ b.upperBounds ≠ [] ∧ b.extents.prod < 2 ^ 31 := by
  have hpos : 0 < b.extents.prod := List.prod_pos h.ordered
  unfold Block.numberOfItems
  by_cases hnil : b.upperBounds = []
  · rw [if_pos hnil]
    exact iff_of_false hpos.ne fun hne => hne.1 hnil
  · have hone : toInt 1 = 1 := rfl
    have hfold := foldl_toInt 1 b.extents
    rw [hone, one_mul] at hfold
    rw [if_neg hnil, and_iff_right hnil]
    exact (Eq.congr_left hfold).trans (toInt_eq_self_iff hpos.le)

/-- The items of a block that spans a layout are the layout's. -/
theorem Block.Spans.prod_extents {D : Type*} {l : Layout} {b : Block D} (h : b.Spans l) :
    b.extents.prod = ((l.along.map Dimension.extent).prod : ℕ) := by
  rw [Block.extents, h.extents, Nat.cast_list_prod, List.map_map]
  rfl

end Data

/-! ## What the server makes of a remote write -/

/-- A remote write of a block with this layout is received as it is: the server asks for a
region of as many bytes as the message announces, and receives into all of it. -/
def Data.Block.ReceivedExactly {D : Type*} (A : Type*) (l : Layout) (b : Block D) : Prop :=
  ∀ (c c' : Client A) (id block : ℤ) (v : Variable A) (rwm : RemoteWriteMessage),
    RemoteClient.write c id block = some (c', .OK, some rwm) → c.vars id = some v → v.layout = l →
    (bounds rwm.dims).lbounds = b.lowerBounds → (bounds rwm.dims).ubounds = b.upperBounds →
    ∀ (vs : Variables (A × ℕ)) (sv : Variable (A × ℕ)) (source : ℤ) (a : A)
      (recv : A × ℕ → A × ℕ), vs id = some sv → sv.layout = l →
      sv.getBlock source rwm.iteration rwm.block = none →
      ∃ vs' y, vs.onRemoteWrite (some fun n => some (a, n)) source rwm recv = some (vs', true) ∧
        vs'.Stores id y ∧ y.dataspace = some (recv (a, rwm.size))

theorem Data.Block.numberOfItems_congr {D D' : Type*} {b : Block D} {b' : Block D'}
    (hl : b.lowerBounds = b'.lowerBounds) (hu : b.upperBounds = b'.upperBounds) :
    b.numberOfItems = b'.numberOfItems := by
  rw [Block.numberOfItems, Block.numberOfItems, hl, hu]

/-- The server asks for as many bytes as the items between the message's bounds take, and
receives into what it gets. -/
theorem Variables.onRemoteWrite_receives {A : Type*} {vs : Variables (A × ℕ)} {sv : Variable (A × ℕ)}
    {rwm : RemoteWriteMessage} {source : ℤ} (hsv : vs rwm.id = some sv)
    (hdims : rwm.dims.length = sv.layout.dimensions)
    (hfree : sv.getBlock source rwm.iteration rwm.block = none) (a : A) (recv : A × ℕ → A × ℕ)
    {D : Type*} {b : Block D} (hl : (bounds rwm.dims).lbounds = b.lowerBounds)
    (hu : (bounds rwm.dims).ubounds = b.upperBounds) :
    ∃ vs' y, vs.onRemoteWrite (some fun n => some (a, n)) source rwm recv = some (vs', true) ∧
      vs'.Stores rwm.id y ∧
      y.dataspace = some (recv (a, toSize (b.numberOfItems * sv.layout.typeSize))) := by
  have hcovers : (bounds rwm.dims).Covers sv.layout.dimensions := hdims ▸ covers_bounds rwm.dims
  set filled := Block.setBounds sv.layout.dimensions (bounds rwm.dims)
    (Block.new source (sv.normalise rwm.iteration) rwm.block sv.layout : Block (A × ℕ)) with hfilled
  have hitems : filled.numberOfItems = b.numberOfItems := by
    refine Block.numberOfItems_congr ?_ ?_
    · rw [← hl, hfilled]
      exact List.take_of_length_le (by simp [hdims])
    · rw [← hu, hfilled]
      exact List.take_of_length_le (by simp [hdims])
  set ds : A × ℕ := (a, toSize (b.numberOfItems * sv.layout.typeSize)) with hds
  set y := sv.adopt (filled.setDataSpace (some ds)) with hy
  have hcall : sv.allocateFixedSize (some (⟨fun n => some (some (a, n)), fun n => some (some (a, n)),
      fun _ _ => none⟩ : Buffer Unit (A × ℕ))) source rwm.iteration rwm.block (bounds rwm.dims) =
      some ((sv.attachBlock (some (filled.setDataSpace (some ds)))).1, some y) := by
    have hget : sv.getBlock source (sv.normalise rwm.iteration) rwm.block = none := by
      rw [Variable.getBlock_normalise]
      exact hfree
    rw [Variable.allocateFixedSize, if_pos (.inr (.inr hcovers))]
    simp only [Variable.allocateWith, Option.map_some, hget, Option.isSome_none, Bool.false_eq_true,
      if_false, ← hfilled, hitems, id]
    rfl
  have hadds := (Variable.allocateFixedSize_adds hcall).store
    (Block.key_setDataSpace (some (recv ds)) y)
  refine ⟨vs.set rwm.id ((sv.attachBlock (some (filled.setDataSpace (some ds)))).1.store
    (y.setDataSpace (some (recv ds)))), y.setDataSpace (some (recv ds)), ?_, ?_, rfl⟩
  · simp only [Variables.onRemoteWrite, hsv, Option.map_some, hcall]
    rfl
  · exact Variables.stores_set.mpr (.inl ⟨rfl, (hadds.added _ rfl _).mpr (.inr rfl)⟩)

/-- The three computations agree on the block, for every layout that it spans. -/
def Data.Block.SizesAgree {D : Type*} (A : Type*) (b : Block D) : Prop :=
  b.numberOfItems = b.extents.prod ∧
    ∀ l, b.Spans l → b.numberOfItems = (l.numberOfItems true : ℕ) ∧ b.ReceivedExactly A l

/-- A grid of two by three, and one of 65536 by 65536 characters. -/
def smallGrid : Block ℕ := Block.new 0 0 0 ⟨4, [⟨2, 2, (0, 0)⟩, ⟨3, 3, (0, 0)⟩]⟩

def largeGrid : Block ℕ := Block.new 0 0 0 ⟨1, [⟨65536, 65536, (0, 0)⟩, ⟨65536, 65536, (0, 0)⟩]⟩

end Damaris
