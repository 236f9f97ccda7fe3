import Damaris.Storage.PerCore

/-!
# One dataset a variable, addressed by cells

In collective mode the blocks of a variable go to one dataset, each item to the index that the
variable `GLOBAL_CELL_INDEX` gives its cell. The store takes these indices over in iteration 0,
and keeps them. What MPI adds to the calls, and the data that is transferred, are not part of
the model: an item of a block is transferred to the file element selected at the same place.
-/
namespace Damaris

open Data RowMajor

namespace Data

variable {D : Type*}

/-- `CountLocalBlocks`. -/
def Variable.countLocalBlocks (v : Variable D) (iteration : ℤ) : ℕ :=
  (v.blocksByIteration (if v.timeVarying then iteration else 0)).length

end Data

namespace HDF5Store

variable {S V D : Type}

/-- Where `OutputCollective` ends that does not return. -/
inductive Fault
  | nullPointer
  | assertion
  | emptyList
  | lengthError
  | outOfBounds
  deriving DecidableEq

/-- What `Output` finds when it is called: `GLOBAL_CELL_INDEX`, whose data is read as `int`, and the
variables of the store. -/
structure Call (D : Type) where
  iteration : ℤ
  gci : Option (Variable (List Int32))
  vars : List (Variable D)

/-- `IterationIsEmpty`. -/
def Call.isEmpty (c : Call D) : Bool := c.vars.all fun v => v.countLocalBlocks c.iteration = 0

/-- `resize` of a vector of `hsize_t` with the value -1. -/
def resize (m : List ℕ) (size : ℕ) : List ℕ :=
  m.take size ++ List.replicate (size - m.length) (toSize (-1))

/-- The loop body that copies a block of indices to its place. -/
def copyBlock (m : List ℕ) (b : Block (List Int32)) : Except Fault (List ℕ) :=
  let data := b.dataspace.getD []
  let size := toSize (b.endIndex 0 - b.startIndex 0 + 1)
  let pos := toSize (b.startIndex 0)
  if size ≤ data.length ∧ pos + size ≤ m.length then
    .ok (m.take pos ++ ((data.take size).map fun x => toSize x.toInt) ++ m.drop (pos + size))
  else .error .outOfBounds

/-- What `OutputCollective` does to `cellMapping_` in iteration 0. -/
def fillMapping (m : List ℕ) (gci : Option (Variable (List Int32))) : Except Fault (List ℕ) :=
  match gci with
  | none => .error .nullPointer
  | some v =>
    if v.layout.dimensions ≠ 1 then .error .assertion
    else
      match v.blocksByIteration 0 with
      | [] => .error .emptyList
      | b :: blocks =>
        let globalSize := toInt (b.globalDims.getD 0 0 : ℕ)
        if globalSize < 0 then .error .lengthError
        else (b :: blocks).foldlM copyBlock (resize m globalSize.toNat)

/-- The dataspaces that a block is written with. -/
structure Selection (S D : Type) where
  block : Block D
  memSpace : Option S
  fileSpace : Option S

/-- The loop body over blocks of `OutputCollective`. The number of elements is the first dimension
of the block, and as many coordinates are read for each as the dataset has dimensions. A selection
that fails leaves the dataspace as it was, with everything selected. -/
def selectBlock (h : Hdf5 S V) (m : List ℕ) (rank : ℕ) (dataset : Option S) (b : Block D) :
    Except Fault (Selection S D) :=
  let memOffset := (List.range rank).map fun i => toSize (b.startIndex i)
  let memDim := b.sizes rank
  let memSpace := h.createSimple memDim
  match memDim, memOffset with
  | num :: _, pos :: _ =>
    match dataset.map h.selectAll with
    | none => .ok ⟨b, memSpace, none⟩
    | some fileSpace =>
      let coords := num * (h.extents fileSpace).length
      if num ≠ 0 ∧ m.length < pos + coords then .error .outOfBounds
      else .ok ⟨b, memSpace,
        (h.selectElements fileSpace num ((m.drop pos).take coords)).getD fileSpace⟩
  | _, _ => .error .outOfBounds

/-- The loop body over variables: the dataset gets the global extents of the first block. -/
def outputVariable (h : Hdf5 S V) (m : List ℕ) (iteration : ℤ) (v : Variable D) :
    Except Fault (List (Selection S D)) :=
  let rank := v.layout.dimensions
  let blocks := v.blocksByIteration iteration
  let dataset := blocks.head?.bind fun b =>
    h.createSimple ((List.range rank).map fun i => b.globalDims.getD i 0)
  blocks.mapM (selectBlock h m rank dataset)

/-- `OutputCollective`: `cellMapping_` afterwards, and what is selected for each block. -/
def outputCollective (h : Hdf5 S V) (m : List ℕ) (c : Call D) :
    Except Fault (List ℕ × List (Selection S D)) :=
  (if c.iteration = 0 then fillMapping m c.gci else .ok m).bind fun m =>
    ((c.vars.filter fun v => v.writtenIn c.iteration).mapM (outputVariable h m c.iteration)).map
      fun written => (m, written.flatten)

/-- `Output`. -/
def output (h : Hdf5 S V) (m : List ℕ) (c : Call D) : Except Fault (List ℕ × List (Selection S D)) :=
  if c.isEmpty then .ok (m, []) else outputCollective h m c

/-! ## What is addressed -/

/-- The value that a block of `GLOBAL_CELL_INDEX` has for a cell. -/
def valueAt (b : Block (List Int32)) (c : ℕ) : Option ℤ :=
  if b.startIndex 0 ≤ c ∧ c ≤ b.endIndex 0 then
    ((b.dataspace.getD [])[(c - b.startIndex 0).toNat]?).map Int32.toInt
  else none

/-- The blocks give a cell this value, and none gives it another. -/
def IsCell (cells : List (Block (List Int32))) (c x : ℕ) : Prop :=
  (∃ b ∈ cells, valueAt b c = some (x : ℤ)) ∧ ∀ b ∈ cells, ∀ y ∈ valueAt b c, y = x

instance (cells : List (Block (List Int32))) (c x : ℕ) : Decidable (IsCell cells c x) :=
  inferInstanceAs (Decidable (_ ∧ _))

/-- All items of the block are selected in memory, as many elements in the file, and the one for
an item has the value of its cell for an index. -/
def Addressed (h : Hdf5 S V) (cells : List (Block (List Int32))) (m : List ℕ) (s : Selection S D) :
    Prop :=
  ∃ mem file, s.memSpace = some mem ∧ s.fileSpace = some file ∧
    h.selected mem = points (s.block.extents.map Int.toNat) ∧
    ((h.selected file).length : ℤ) = s.block.extents.prod ∧
    ∀ k < (h.selected file).length, ∃ c x : ℕ, (c : ℤ) = s.block.startIndex 0 + k ∧
      IsCell cells c x ∧ m[c]? = some x ∧ (h.selected file)[k]? = some [x] ∧
      [x] ∈ points (h.extents file)

/-- A block with bounds in order along each of its dimensions, within 64 bits. -/
structure Regular (rank : ℕ) (b : Block D) : Prop where
  lower : b.lowerBounds.length = rank
  upper : b.upperBounds.length = rank
  globalDims : b.globalDims.length = rank
  starts : ∀ x ∈ b.lowerBounds, -2 ^ 63 ≤ x ∧ x < 2 ^ 63
  extents : ∀ e ∈ b.extents, 0 ≤ e ∧ e < 2 ^ 63

/-- The cells of a block of one dimension have indices inside the dataset, which has that dimension,
too; or the block has no extent along its first dimension, and the dataset has no element. -/
def Addressable (cells : List (Block (List Int32))) (globalDims : List ℕ) (b : Block D) : Prop :=
  globalDims.length ≤ Hdf5.maxRank ∧ Hdf5.unlimited ∉ globalDims ∧
    ((b.extents.head? = some 0 ∧ 0 ∈ globalDims) ∨
      ∃ e n, b.extents = [e] ∧ globalDims = [n] ∧ 0 < e ∧ 0 ≤ b.startIndex 0 ∧
        ∀ k < e.toNat, ∃ x < n, IsCell cells ((b.startIndex 0).toNat + k) x)

/-! ### One block -/

section

variable {h : Hdf5 S V} {rank : ℕ} {b : Block D}

theorem map_getD_range {α : Type} (l : List α) (d : α) :
    ((List.range l.length).map fun i => l.getD i d) = l := by
  refine List.ext_getElem (by simp) ?_
  intro i hi hi'
  simp [hi']

theorem Regular.map_startIndex (hb : Regular rank b) :
    ((List.range rank).map fun i => toSize (b.startIndex i)) = b.lowerBounds.map toSize := by
  conv_rhs => rw [← map_getD_range b.lowerBounds 0, hb.lower, List.map_map]
  rfl

theorem Regular.length_extents (hb : Regular rank b) : b.extents.length = rank :=
  Block.length_extents hb.lower hb.upper

theorem Regular.sizes (hb : Regular rank b) : b.sizes rank = b.extents.map Int.toNat :=
  Block.sizes_eq hb.lower hb.upper hb.extents

theorem Regular.startIndex_range (hb : Regular rank b) (i : ℕ) :
    -2 ^ 63 ≤ b.startIndex i ∧ b.startIndex i < 2 ^ 63 := by
  rw [Block.startIndex, List.getD_eq_getElem?_getD]
  cases hx : b.lowerBounds[i]? with
  | none => norm_num
  | some x => exact hb.starts x (List.mem_of_getElem? hx)

theorem Regular.toSize_startIndex (hb : Regular rank b) {i : ℕ} (h : 0 ≤ b.startIndex i) :
    toSize (b.startIndex i) = (b.startIndex i).toNat := by
  have hlt := (hb.startIndex_range i).2
  unfold toSize
  omega

/-- What is selected for a block with a first dimension, in a dataset that was created. -/
theorem selectBlock_cons (hdoc : h.Documented) (hb : Regular rank b) {e : ℤ} {es : List ℤ}
    (he : b.extents = e :: es) {space : S} {g : List ℕ} (hg : g.length = rank)
    (hextents : h.extents space = g) (m : List ℕ) :
    selectBlock h m rank (some space) b =
      if e.toNat ≠ 0 ∧ m.length < toSize (b.startIndex 0) + e.toNat * rank then .error .outOfBounds
      else .ok ⟨b, h.createSimple (b.extents.map Int.toNat),
        (h.selectElements (h.selectAll space) e.toNat
          ((m.drop (toSize (b.startIndex 0))).take (e.toNat * rank))).getD (h.selectAll space)⟩ := by
  have hlower : b.lowerBounds.length = es.length + 1 := by
    rw [hb.lower, ← hb.length_extents, he, List.length_cons]
  obtain ⟨x, xs, hx⟩ := List.exists_cons_of_length_eq_add_one hlower
  have hstart : b.startIndex 0 = x := by
    rw [Block.startIndex, hx]
    rfl
  unfold selectBlock
  dsimp only
  rw [hb.sizes, hb.map_startIndex, hx, hstart, he]
  simp only [List.map_cons, Option.map_some, (hdoc.selectAll space).1, hextents, hg]

theorem selectBlock_nil (hb : Regular rank b) (hnil : b.extents = []) (dataset : Option S) (m : List ℕ) :
    selectBlock h m rank dataset b = .error .outOfBounds := by
  unfold selectBlock
  dsimp only
  rw [hb.sizes, hnil]
  rfl

theorem selectBlock_none {m : List ℕ} {s : Selection S D} (hs : selectBlock h m rank none b = .ok s) :
    s.fileSpace = none := by
  unfold selectBlock at hs
  dsimp only at hs
  split at hs
  · cases hs
    rfl
  · cases hs

variable {m : List ℕ} {g : List ℕ} {cells : List (Block (List Int32))} {s : Selection S D}

/-- Points of one coordinate are selected for a block that has items, so it has one dimension, and
they are the indices of its cells. -/
theorem addressable_of_elements (hb : Regular rank b) (hg : g.length = rank) {e : ℤ} {es : List ℤ}
    (hes : b.extents = e :: es) (hpos : 0 < e)
    (hitems : ∀ k < e.toNat, ∃ c x : ℕ, (c : ℤ) = b.startIndex 0 + k ∧ IsCell cells c x ∧
      [x] ∈ points g) :
    ∃ e' n, b.extents = [e'] ∧ g = [n] ∧ 0 < e' ∧ 0 ≤ b.startIndex 0 ∧
      ∀ k < e'.toNat, ∃ x < n, IsCell cells ((b.startIndex 0).toNat + k) x := by
  obtain ⟨c₀, x₀, hc₀, -, hx₀⟩ := hitems 0 (by omega)
  have hone : g.length = 1 := (length_of_mem_points hx₀).symm
  obtain ⟨n, hn⟩ := List.length_eq_one_iff.mp hone
  have hnil : es = [] := by
    have hlen := hb.length_extents
    rw [hes, ← hg, hone, List.length_cons] at hlen
    exact List.length_eq_zero_iff.mp (by omega)
  refine ⟨e, n, by rw [hes, hnil], hn, hpos, by omega, ?_⟩
  intro k hk
  obtain ⟨c, x, hc, hcell, hx⟩ := hitems k hk
  rw [hn, singleton_mem_points] at hx
  have hcnat : (b.startIndex 0).toNat + k = c := by omega
  exact ⟨x, hx, hcnat ▸ hcell⟩

theorem addressable_of_addressed (hdoc : h.Documented) (hb : Regular rank b) (hg : g.length = rank)
    (hs : selectBlock h m rank (h.createSimple g) b = .ok s) (haddr : Addressed h cells m s) :
    Addressable cells g b := by
  obtain ⟨mem, file, -, hfile, -, hcount, hitems⟩ := haddr
  cases hcreate : h.createSimple g with
  | none =>
    rw [hcreate] at hs
    rw [selectBlock_none hs] at hfile
    cases hfile
  | some space =>
    obtain ⟨hrank, hlimited, hextents, -⟩ := hdoc.of_createSimple hcreate
    obtain ⟨hallextents, hall⟩ := hdoc.selectAll space
    rw [hextents] at hall hallextents
    cases hes : b.extents with
    | nil =>
      rw [selectBlock_nil hb hes] at hs
      cases hs
    | cons e es =>
      rw [hcreate, selectBlock_cons hdoc hb hes hg hextents] at hs
      split at hs
      · cases hs
      rename_i hread
      cases hs
      rw [Option.some.injEq] at hfile
      dsimp only at hcount hitems
      refine ⟨hrank, hlimited, ?_⟩
      have hnonneg : 0 ≤ e := (hb.extents e (hes ▸ List.mem_cons_self)).1
      rcases hnonneg.eq_or_lt with hzero | hpos
      · -- Nothing is selected by elements, and everything stays selected.
        rw [← hzero, Int.toNat_zero, hdoc.selectElements_zero, Option.getD_none] at hfile
        rw [← hfile, hall, length_points, hes, ← hzero, List.prod_cons, zero_mul] at hcount
        refine .inl ⟨by rw [hes, ← hzero]; rfl, ?_⟩
        exact List.prod_eq_zero_iff.mp (by exact_mod_cast hcount)
      · have hne : g ≠ [] := by
          rintro rfl
          have hlen := hb.length_extents
          rw [← hg, hes] at hlen
          cases hlen
        rw [← hg, ← hallextents] at hread hfile
        obtain ⟨file', hfile', hextents', hselected⟩ := hdoc.read (h.selectAll space) m
          (Int.pos_iff_toNat_pos.mp hpos) (hallextents ▸ hne)
          (not_lt.mp fun hlt => hread ⟨by omega, hlt⟩)
        rw [hfile', Option.getD_some] at hfile
        subst hfile
        refine .inr (addressable_of_elements hb hg hes hpos ?_)
        intro k hk
        obtain ⟨c, x, hc, hcell, -, -, hx⟩ := hitems k (by rw [hselected, Hdf5.length_elements]; exact hk)
        rw [hextents', hallextents] at hx
        exact ⟨c, x, hc, hcell, hx⟩

theorem addressed_of_addressable (hdoc : h.Documented) (hb : Regular rank b) (hg : g.length = rank)
    (hfilled : ∀ c x, IsCell cells c x → m[c]? = some x) (haddr : Addressable cells g b) :
    ∃ s, selectBlock h m rank (h.createSimple g) b = .ok s ∧ Addressed h cells m s := by
  obtain ⟨hrank, hlimited, hcase⟩ := haddr
  obtain ⟨space, hcreate, hextents, -⟩ := hdoc.createSimple_le g hrank hlimited
  obtain ⟨hallextents, hall⟩ := hdoc.selectAll space
  rw [hextents] at hall hallextents
  obtain ⟨mem, hmem, -, hmemselected⟩ := hdoc.createSimple_le (b.extents.map Int.toNat)
    (by rw [List.length_map, hb.length_extents, ← hg]; exact hrank)
    (Hdf5.unlimited_notMem fun e he => (hb.extents e he).2)
  rcases hcase with ⟨hhead, hzero⟩ | ⟨e, n, hes, hn, hpos, hstart, hcells⟩
  · obtain ⟨es, hes⟩ := List.head?_eq_some_iff.mp hhead
    have hselected : (h.selected (h.selectAll space)).length = 0 := by
      rw [hall, length_points]
      exact List.prod_eq_zero_iff.mpr hzero
    refine ⟨⟨b, some mem, some (h.selectAll space)⟩, ?_, mem, h.selectAll space, rfl, rfl, hmemselected,
      ?_, ?_⟩
    · rw [hcreate, selectBlock_cons hdoc hb hes hg hextents, hmem, Int.toNat_zero,
        hdoc.selectElements_zero, Option.getD_none, if_neg (by simp)]
    · rw [hselected, hes, List.prod_cons, zero_mul, Nat.cast_zero]
    · intro k hk
      omega
  · subst hn
    have hrank1 : rank = 1 := hg.symm
    subst hrank1
    have hvalue : ∀ k < e.toNat, ∃ x < n, IsCell cells ((b.startIndex 0).toNat + k) x ∧
        m[(b.startIndex 0).toNat + k]? = some x := by
      intro k hk
      obtain ⟨x, hx, hcell⟩ := hcells k hk
      exact ⟨x, hx, hcell, hfilled _ _ hcell⟩
    have hread : (b.startIndex 0).toNat + e.toNat ≤ m.length := by
      obtain ⟨x, -, -, hlast⟩ := hvalue (e.toNat - 1) (by omega)
      have hlt := (List.getElem?_eq_some_iff.mp hlast).1
      omega
    obtain ⟨file, hfile, hfileextents, hselected⟩ := hdoc.read (h.selectAll space) m
      (Int.pos_iff_toNat_pos.mp hpos) (by rw [hallextents]; simp)
      (by rw [hallextents, List.length_singleton, Nat.mul_one]; exact hread)
    rw [hallextents, List.length_singleton, Nat.mul_one] at hfile hselected
    refine ⟨⟨b, some mem, some file⟩, ?_, mem, file, rfl, rfl, hmemselected, ?_, ?_⟩
    · rw [hcreate, selectBlock_cons hdoc hb hes hg hextents, hmem, hb.toSize_startIndex hstart,
        Nat.mul_one, hfile, Option.getD_some, if_neg (by omega)]
    · rw [hselected, Hdf5.length_elements, hes, List.prod_singleton]
      omega
    · rw [hselected, Hdf5.length_elements, hfileextents, hallextents]
      intro k hk
      obtain ⟨x, hx, hcell, hmapped⟩ := hvalue k hk
      refine ⟨(b.startIndex 0).toNat + k, x, by dsimp only; omega, hcell, hmapped, ?_,
        singleton_mem_points.mpr hx⟩
      rw [Hdf5.elements_one hk (by rw [List.length_take, List.length_drop]; omega),
        List.getElem?_take_of_lt hk, List.getElem?_drop, hmapped]
      rfl

/-- A block is addressed exactly when it is addressable, whatever the library does beyond its
documentation. -/
theorem selectBlock_iff (hdoc : h.Documented) (hb : Regular rank b) (hg : g.length = rank)
    (hfilled : ∀ c x, IsCell cells c x → m[c]? = some x) :
    (∃ s, selectBlock h m rank (h.createSimple g) b = .ok s ∧ Addressed h cells m s) ↔
      Addressable cells g b := by
  constructor
  · rintro ⟨s, hs, haddr⟩
    exact addressable_of_addressed hdoc hb hg hs haddr
  · exact addressed_of_addressable hdoc hb hg hfilled

end

/-! ### The mapping of iteration 0 -/

/-- A block of indices has data, and lies in an extent. -/
def FitsIn (extent : ℤ) (b : Block (List Int32)) : Prop :=
  0 ≤ b.startIndex 0 ∧ b.endIndex 0 + 1 ≤ extent ∧
    b.endIndex 0 - b.startIndex 0 + 1 ≤ (b.dataspace.getD []).length

/-- There is a variable of cell indices, of one dimension and with a block, and its blocks lie inside
the extent that the first one has for global. -/
def Fillable (gci : Option (Variable (List Int32))) : Prop :=
  ∃ v b blocks, gci = some v ∧ v.layout.dimensions = 1 ∧ v.blocksByIteration 0 = b :: blocks ∧
    ∀ x ∈ b :: blocks, FitsIn (toInt (b.globalDims.getD 0 0 : ℕ)) x

section

variable {m m' : List ℕ} {b : Block (List Int32)} {blocks : List (Block (List Int32))}

theorem Regular.extent_range (hb : Regular 1 b) :
    0 ≤ b.endIndex 0 - b.startIndex 0 + 1 ∧ b.endIndex 0 - b.startIndex 0 + 1 < 2 ^ 63 := by
  obtain ⟨x, hx⟩ := List.length_eq_one_iff.mp hb.lower
  obtain ⟨y, hy⟩ := List.length_eq_one_iff.mp hb.upper
  have hrange := hb.extents
  rw [Block.extents, hx, hy] at hrange
  rw [Block.endIndex, Block.startIndex, hx, hy]
  exact hrange _ (List.mem_singleton_self _)

theorem copyBlock_iff (hb : Regular 1 b) (hm : m.length < 2 ^ 63) :
    (∃ m', copyBlock m b = .ok m') ↔ FitsIn m.length b := by
  have hextent := hb.extent_range
  have hstart := hb.startIndex_range 0
  have hguard : (toSize (b.endIndex 0 - b.startIndex 0 + 1) ≤ (b.dataspace.getD []).length ∧
      toSize (b.startIndex 0) + toSize (b.endIndex 0 - b.startIndex 0 + 1) ≤ m.length) ↔
      FitsIn m.length b := by
    unfold FitsIn toSize
    omega
  rw [← hguard]
  unfold copyBlock
  dsimp only
  split
  · rename_i h
    exact iff_of_true ⟨_, rfl⟩ h
  · rename_i h
    refine iff_of_false ?_ h
    rintro ⟨m', hm'⟩
    cases hm'

/-- A copied block gives its values to its cells, and leaves the others alone. -/
theorem copyBlock_ok (hb : Regular 1 b) (hm : m.length < 2 ^ 63) (h : copyBlock m b = .ok m') :
    m'.length = m.length ∧ ∀ c, m'[c]? = ((valueAt b c).map toSize).or (m[c]?) := by
  obtain ⟨hstart, hend, hdata⟩ := (copyBlock_iff hb hm).mp ⟨m', h⟩
  have hextent := hb.extent_range
  have hpos : toSize (b.startIndex 0) = (b.startIndex 0).toNat := hb.toSize_startIndex hstart
  obtain ⟨size, hsize⟩ := Int.eq_ofNat_of_zero_le hextent.1
  have hsize64 : toSize (b.endIndex 0 - b.startIndex 0 + 1) = size := by
    rw [hsize]
    exact toSize_of_lt (by omega)
  unfold copyBlock at h
  dsimp only at h
  rw [hpos, hsize64, if_pos (by omega)] at h
  cases h
  set pos := (b.startIndex 0).toNat with hposdef
  set data := b.dataspace.getD [] with hdatadef
  have hbelow : (m.take pos).length = pos := by
    rw [List.length_take]
    omega
  have hcopied : ((data.take size).map fun x => toSize x.toInt).length = size := by
    rw [List.length_map, List.length_take]
    omega
  refine ⟨?_, ?_⟩
  · rw [List.length_append, List.length_append, hbelow, hcopied, List.length_drop]
    omega
  · intro c
    by_cases hlow : c < pos
    · have hnone : valueAt b c = none := if_neg (by omega)
      rw [hnone, List.append_assoc, List.getElem?_append_left (by omega), List.getElem?_take_of_lt hlow]
      rfl
    · by_cases hhigh : c < pos + size
      · have hindex : ((c : ℤ) - b.startIndex 0).toNat = c - pos := by omega
        have hvalue : valueAt b c = (data[c - pos]?).map Int32.toInt := by
          rw [valueAt, if_pos (by omega), hindex]
        rw [List.getElem?_append_left (by rw [List.length_append]; omega),
          List.getElem?_append_right (by omega), hbelow, List.getElem?_map,
          List.getElem?_take_of_lt (by omega), hvalue,
          List.getElem?_eq_getElem (by omega : c - pos < data.length)]
        rfl
      · have hnone : valueAt b c = none := if_neg (by omega)
        rw [hnone, List.getElem?_append_right (by rw [List.length_append]; omega), List.length_append,
          hbelow, hcopied, List.getElem?_drop]
        have hc : pos + size + (c - (pos + size)) = c := by omega
        rw [hc]
        rfl

theorem valueAt_lt {c : ℕ} {y : ℤ} (h : y ∈ valueAt b c) : y < 2 ^ 31 := by
  unfold valueAt at h
  split at h
  · obtain ⟨x, -, rfl⟩ := Option.map_eq_some_iff.mp h
    exact x.toInt_lt
  · cases h

/-- The copies go through exactly when all blocks fit in. -/
theorem foldlM_copyBlock_iff (hblocks : ∀ b ∈ blocks, Regular 1 b) (hm : m.length < 2 ^ 63) :
    (∃ m', blocks.foldlM copyBlock m = .ok m') ↔ ∀ b ∈ blocks, FitsIn m.length b := by
  induction blocks generalizing m with
  | nil => exact iff_of_true ⟨m, rfl⟩ (by simp)
  | cons b blocks ih =>
    rw [List.forall_mem_cons] at hblocks ⊢
    rw [List.foldlM_cons, ← copyBlock_iff hblocks.1 hm]
    cases hcopy : copyBlock m b with
    | error fault =>
      refine iff_of_false ?_ ?_
      · rintro ⟨m', hm'⟩
        cases hm'
      · rintro ⟨⟨m', hm'⟩, -⟩
        cases hm'
    | ok m₁ =>
      obtain ⟨hlen, -⟩ := copyBlock_ok hblocks.1 hm hcopy
      rw [and_iff_right ⟨m₁, rfl⟩, ← hlen]
      exact ih hblocks.2 (by omega)

/-- After the copies, a cell on whose value the blocks agree has it. -/
theorem foldlM_copyBlock_ok (hblocks : ∀ b ∈ blocks, Regular 1 b) (hm : m.length < 2 ^ 63)
    (h : blocks.foldlM copyBlock m = .ok m') {c x : ℕ} (hsole : ∀ b ∈ blocks, ∀ y ∈ valueAt b c, y = x)
    (hsome : (∃ b ∈ blocks, valueAt b c = some (x : ℤ)) ∨ m[c]? = some x) : m'[c]? = some x := by
  induction blocks generalizing m with
  | nil =>
    cases h
    exact hsome.resolve_left (by simp)
  | cons b blocks ih =>
    rw [List.forall_mem_cons] at hblocks hsole
    rw [List.foldlM_cons] at h
    cases hcopy : copyBlock m b with
    | error fault =>
      rw [hcopy] at h
      cases h
    | ok m₁ =>
      rw [hcopy] at h
      obtain ⟨hlen, hcells⟩ := copyBlock_ok hblocks.1 hm hcopy
      refine ih hblocks.2 (by omega) h hsole.2 ?_
      have hcell := hcells c
      cases hvalue : valueAt b c with
      | none =>
        rw [hvalue, Option.map_none, Option.none_or] at hcell
        rw [hcell]
        refine hsome.imp_left ?_
        rintro ⟨b', hb', hx⟩
        rcases List.mem_cons.mp hb' with rfl | hb'
        · rw [hvalue] at hx
          cases hx
        · exact ⟨b', hb', hx⟩
      | some y =>
        have hy := hsole.1 y hvalue
        have hlt := valueAt_lt hvalue
        rw [hvalue, hy, Option.map_some, Option.some_or, toSize_of_lt (by omega)] at hcell
        exact .inr hcell

theorem length_resize (m : List ℕ) (size : ℕ) : (resize m size).length = size := by
  rw [resize, List.length_append, List.length_take, List.length_replicate]
  omega

variable {gci : Option (Variable (List Int32))}

/-- The blocks that iteration 0 reads indices from. -/
def cellsOf (gci : Option (Variable (List Int32))) : List (Block (List Int32)) :=
  gci.elim [] fun v => v.blocksByIteration 0

/-- The ways through the checks that come before the copies. -/
theorem fillMapping_eq_ok : fillMapping m gci = .ok m' ↔
    ∃ v b blocks, gci = some v ∧ v.layout.dimensions = 1 ∧ v.blocksByIteration 0 = b :: blocks ∧
      0 ≤ toInt (b.globalDims.getD 0 0 : ℕ) ∧ (b :: blocks).foldlM copyBlock
        (resize m (toInt (b.globalDims.getD 0 0 : ℕ)).toNat) = .ok m' := by
  unfold fillMapping
  constructor
  · intro h
    split at h
    · cases h
    rename_i v
    split at h
    · cases h
    rename_i hdims
    split at h
    · cases h
    rename_i b blocks hblocks
    dsimp only at h
    split at h
    · cases h
    rename_i hsize
    exact ⟨v, b, blocks, rfl, not_not.mp hdims, hblocks, not_lt.mp hsize, h⟩
  · rintro ⟨v, b, blocks, rfl, hdims, hblocks, hsize, hfold⟩
    dsimp only
    rw [if_neg (not_not.mpr hdims), hblocks]
    dsimp only
    rw [if_neg (not_lt.mpr hsize), hfold]

theorem length_resize_lt (m : List ℕ) (n : ℕ) : (resize m (toInt n).toNat).length < 2 ^ 63 := by
  have hlt := Int.bmod_lt (x := n) (m := 2 ^ 32) (by norm_num)
  rw [length_resize]
  unfold toInt
  norm_num at hlt ⊢
  omega

theorem fillMapping_iff
    (hreg : ∀ v ∈ gci, ∀ b ∈ v.blocksByIteration 0, Regular v.layout.dimensions b) :
    (∃ m', fillMapping m gci = .ok m') ↔ Fillable gci := by
  simp only [fillMapping_eq_ok, Fillable]
  constructor
  · rintro ⟨m', v, b, blocks, rfl, hdims, hblocks, hsize, hfold⟩
    have hregs : ∀ x ∈ b :: blocks, Regular 1 x := fun x hx => hdims ▸ hreg v rfl x (hblocks ▸ hx)
    have hfits := (foldlM_copyBlock_iff hregs (length_resize_lt m _)).mp ⟨m', hfold⟩
    rw [length_resize, Int.toNat_of_nonneg hsize] at hfits
    exact ⟨v, b, blocks, rfl, hdims, hblocks, hfits⟩
  · rintro ⟨v, b, blocks, rfl, hdims, hblocks, hfits⟩
    have hregs : ∀ x ∈ b :: blocks, Regular 1 x := fun x hx => hdims ▸ hreg v rfl x (hblocks ▸ hx)
    have hsize : 0 ≤ toInt (b.globalDims.getD 0 0 : ℕ) := by
      have hextent := (hregs b List.mem_cons_self).extent_range.1
      obtain ⟨hstart, hend, -⟩ := hfits b List.mem_cons_self
      omega
    have hfitsresized : ∀ x ∈ b :: blocks,
        FitsIn (resize m (toInt (b.globalDims.getD 0 0 : ℕ)).toNat).length x := by
      rw [length_resize, Int.toNat_of_nonneg hsize]
      exact hfits
    obtain ⟨m', hfold⟩ := (foldlM_copyBlock_iff hregs (length_resize_lt m _)).mpr hfitsresized
    exact ⟨m', v, b, blocks, rfl, hdims, hblocks, hsize, hfold⟩

theorem fillMapping_ok
    (hreg : ∀ v ∈ gci, ∀ b ∈ v.blocksByIteration 0, Regular v.layout.dimensions b)
    (h : fillMapping m gci = .ok m') {c x : ℕ} (hcell : IsCell (cellsOf gci) c x) :
    m'[c]? = some x := by
  obtain ⟨v, b, blocks, rfl, hdims, hblocks, -, hfold⟩ := fillMapping_eq_ok.mp h
  have hregs : ∀ x ∈ b :: blocks, Regular 1 x := fun x hx => hdims ▸ hreg v rfl x (hblocks ▸ hx)
  have hcells : cellsOf (some v) = b :: blocks := hblocks
  rw [hcells] at hcell
  exact foldlM_copyBlock_ok hregs (length_resize_lt m _) hfold hcell.2 (.inl hcell.1)

end

/-! ### A call, and a run -/

/-- The blocks whose indices hold after a call. -/
def Call.cells (c : Call D) (cells : List (Block (List Int32))) : List (Block (List Int32)) :=
  if c.isEmpty = false ∧ c.iteration = 0 then cellsOf c.gci else cells

/-- Every block of a call is regular. -/
structure Call.Regular (c : Call D) : Prop where
  gci : ∀ v ∈ c.gci, ∀ b ∈ v.blocksByIteration 0, HDF5Store.Regular v.layout.dimensions b
  vars : ∀ v ∈ c.vars, ∀ b ∈ v.blocksByIteration c.iteration,
    HDF5Store.Regular v.layout.dimensions b

/-- What a call needs: indices to read in iteration 0, and addressable blocks to write. -/
def Call.Safe (c : Call D) (cells : List (Block (List Int32))) : Prop :=
  c.isEmpty = false → (c.iteration = 0 → Fillable c.gci) ∧
    ∀ v ∈ c.vars, v.writtenIn c.iteration = true → ∀ first ∈ (v.blocksByIteration c.iteration).head?,
      ∀ b ∈ v.blocksByIteration c.iteration, Addressable (c.cells cells) first.globalDims b

/-- Every call of a run returns, and all blocks it writes are addressed. -/
def GoodRun (h : Hdf5 S V) : List ℕ → List (Block (List Int32)) → List (Call D) → Prop
  | _, _, [] => True
  | m, cells, c :: calls => ∃ m' written, output h m c = .ok (m', written) ∧
      (∀ s ∈ written, Addressed h (c.cells cells) m' s) ∧ GoodRun h m' (c.cells cells) calls

def SafeRun : List (Block (List Int32)) → List (Call D) → Prop
  | _, [] => True
  | cells, c :: calls => c.Safe cells ∧ SafeRun (c.cells cells) calls

section

variable {h : Hdf5 S V} {m : List ℕ} {cells : List (Block (List Int32))} {c : Call D}

/-- A traversal ends well exactly when each of its steps does. -/
theorem exists_mapM_iff {ε α β : Type} (f : α → Except ε β) (P : β → Prop) (xs : List α) :
    (∃ ys, xs.mapM f = .ok ys ∧ ∀ y ∈ ys, P y) ↔ ∀ x ∈ xs, ∃ y, f x = .ok y ∧ P y := by
  induction xs with
  | nil => exact iff_of_true ⟨[], rfl, by simp⟩ (by simp)
  | cons x xs ih =>
    rw [List.forall_mem_cons, ← ih, List.mapM_cons]
    cases hx : f x with
    | error fault =>
      refine iff_of_false ?_ ?_
      · rintro ⟨ys, hys, -⟩
        cases hys
      · rintro ⟨⟨y, hy, -⟩, -⟩
        cases hy
    | ok y =>
      cases hxs : xs.mapM f with
      | error fault =>
        refine iff_of_false ?_ ?_
        · rintro ⟨ys, hys, -⟩
          cases hys
        · rintro ⟨-, ys, hys, -⟩
          cases hys
      | ok ys =>
        constructor
        · rintro ⟨zs, hzs, hP⟩
          cases hzs
          rw [List.forall_mem_cons] at hP
          exact ⟨⟨y, rfl, hP.1⟩, ys, rfl, hP.2⟩
        · rintro ⟨⟨y', hy', hPy⟩, ys', hys', hPys⟩
          cases hy'
          cases hys'
          exact ⟨y :: ys, rfl, List.forall_mem_cons.mpr ⟨hPy, hPys⟩⟩

theorem outputVariable_iff (hdoc : h.Documented) {v : Variable D} {iteration : ℤ}
    (hreg : ∀ b ∈ v.blocksByIteration iteration, Regular v.layout.dimensions b)
    (hfilled : ∀ c x, IsCell cells c x → m[c]? = some x) :
    (∃ written, outputVariable h m iteration v = .ok written ∧ ∀ s ∈ written, Addressed h cells m s) ↔
      ∀ first ∈ (v.blocksByIteration iteration).head?, ∀ b ∈ v.blocksByIteration iteration,
        Addressable cells first.globalDims b := by
  unfold outputVariable
  dsimp only
  rw [exists_mapM_iff]
  cases hblocks : v.blocksByIteration iteration with
  | nil => simp
  | cons first blocks =>
    rw [hblocks] at hreg
    have hfirst := hreg first List.mem_cons_self
    have hdims : ((List.range v.layout.dimensions).map fun i => first.globalDims.getD i 0) =
        first.globalDims := by
      rw [← hfirst.globalDims]
      exact map_getD_range _ _
    simp only [List.head?_cons, Option.bind_some, hdims, Option.mem_some, forall_eq']
    refine forall₂_congr ?_
    intro b hb
    exact selectBlock_iff hdoc (hreg b hb) hfirst.globalDims hfilled

theorem outputCollective_eq_ok {m' : List ℕ} {written : List (Selection S D)} :
    outputCollective h m c = .ok (m', written) ↔
      (if c.iteration = 0 then fillMapping m c.gci else .ok m) = .ok m' ∧
        ∃ ws, (c.vars.filter fun v => v.writtenIn c.iteration).mapM
          (outputVariable h m' c.iteration) = .ok ws ∧ ws.flatten = written := by
  unfold outputCollective
  cases hm : (if c.iteration = 0 then fillMapping m c.gci else .ok m) with
  | error fault => exact iff_of_false (by rintro ⟨⟩) (by rintro ⟨⟨⟩, -⟩)
  | ok m₁ =>
    rw [Except.bind]
    constructor
    · intro hout
      cases hws : (c.vars.filter fun v => v.writtenIn c.iteration).mapM
          (outputVariable h m₁ c.iteration) with
      | error fault =>
        rw [hws] at hout
        cases hout
      | ok ws =>
        rw [hws] at hout
        cases hout
        exact ⟨rfl, ws, hws, rfl⟩
    · rintro ⟨hm₁, ws, hws, rfl⟩
      cases hm₁
      rw [hws]
      rfl

/-- Whether it was filled or kept, the mapping has the index of every cell. -/
theorem mapping_filled {m' : List ℕ} (hreg : c.Regular) (hfull : c.isEmpty = false)
    (hfilled : ∀ i x, IsCell cells i x → m[i]? = some x)
    (hm : (if c.iteration = 0 then fillMapping m c.gci else .ok m) = .ok m') :
    ∀ i x, IsCell (c.cells cells) i x → m'[i]? = some x := by
  unfold Call.cells
  by_cases hzero : c.iteration = 0
  · rw [if_pos hzero] at hm
    rw [if_pos ⟨hfull, hzero⟩]
    intro i x hcell
    exact fillMapping_ok hreg.gci hm hcell
  · rw [if_neg hzero] at hm
    cases hm
    rwa [if_neg (by simp [hzero])]

theorem output_filled {m' : List ℕ} {written : List (Selection S D)} (hreg : c.Regular)
    (hfilled : ∀ i x, IsCell cells i x → m[i]? = some x) (hout : output h m c = .ok (m', written)) :
    ∀ i x, IsCell (c.cells cells) i x → m'[i]? = some x := by
  unfold output at hout
  by_cases hempty : c.isEmpty = true
  · rw [if_pos hempty] at hout
    cases hout
    rwa [Call.cells, if_neg (by simp [hempty])]
  · rw [if_neg hempty, outputCollective_eq_ok] at hout
    exact mapping_filled hreg (by simpa using hempty) hfilled hout.1

/-- A call returns, with its blocks addressed, exactly when it is safe. -/
theorem output_iff (hdoc : h.Documented) (hreg : c.Regular)
    (hfilled : ∀ i x, IsCell cells i x → m[i]? = some x) :
    (∃ m' written, output h m c = .ok (m', written) ∧
      ∀ s ∈ written, Addressed h (c.cells cells) m' s) ↔ c.Safe cells := by
  by_cases hempty : c.isEmpty = true
  · refine iff_of_true ⟨m, [], if_pos hempty, by simp⟩ ?_
    intro hfalse
    rw [hempty] at hfalse
    cases hfalse
  · have hfalse : c.isEmpty = false := by simpa using hempty
    have hvars : ∀ m', (∀ i x, IsCell (c.cells cells) i x → m'[i]? = some x) →
        ((∃ ws, (c.vars.filter fun v => v.writtenIn c.iteration).mapM
          (outputVariable h m' c.iteration) = .ok ws ∧ ∀ w ∈ ws, ∀ s ∈ w,
            Addressed h (c.cells cells) m' s) ↔
          ∀ v ∈ c.vars, v.writtenIn c.iteration = true →
            ∀ first ∈ (v.blocksByIteration c.iteration).head?,
              ∀ b ∈ v.blocksByIteration c.iteration,
                Addressable (c.cells cells) first.globalDims b) := by
      intro m' hfilled'
      rw [exists_mapM_iff (outputVariable h m' c.iteration)
        (fun w => ∀ s ∈ w, Addressed h (c.cells cells) m' s)]
      simp only [List.mem_filter, and_imp]
      refine forall₂_congr ?_
      intro v hv
      refine imp_congr_right ?_
      intro _
      exact outputVariable_iff hdoc (hreg.vars v hv) hfilled'
    constructor
    · rintro ⟨m', written, hout, haddr⟩ -
      have hfilled' := output_filled hreg hfilled hout
      rw [output, if_neg hempty, outputCollective_eq_ok] at hout
      obtain ⟨hm, ws, hws, rfl⟩ := hout
      refine ⟨?_, (hvars m' hfilled').mp ⟨ws, hws, ?_⟩⟩
      · intro hzero
        rw [if_pos hzero] at hm
        exact (fillMapping_iff hreg.gci).mp ⟨m', hm⟩
      · intro w hw s hs
        exact haddr s (List.mem_flatten.mpr ⟨w, hw, hs⟩)
    · intro hsafe
      obtain ⟨hfillable, haddressable⟩ := hsafe hfalse
      obtain ⟨m', hm⟩ : ∃ m', (if c.iteration = 0 then fillMapping m c.gci else .ok m) = .ok m' := by
        by_cases hzero : c.iteration = 0
        · rw [if_pos hzero]
          exact (fillMapping_iff hreg.gci).mpr (hfillable hzero)
        · exact ⟨m, if_neg hzero⟩
      obtain ⟨ws, hws, haddr⟩ := (hvars m' (mapping_filled hreg hfalse hfilled hm)).mpr haddressable
      refine ⟨m', ws.flatten, ?_, ?_⟩
      · rw [output, if_neg hempty, outputCollective_eq_ok]
        exact ⟨hm, ws, hws, rfl⟩
      · intro s hs
        obtain ⟨w, hw, hsw⟩ := List.mem_flatten.mp hs
        exact haddr w hw s hsw

theorem goodRun_iff_of_filled (hdoc : h.Documented) {calls : List (Call D)}
    (hreg : ∀ c ∈ calls, c.Regular) (hfilled : ∀ i x, IsCell cells i x → m[i]? = some x) :
    GoodRun h m cells calls ↔ SafeRun cells calls := by
  induction calls generalizing m cells with
  | nil => exact Iff.rfl
  | cons c calls ih =>
    rw [List.forall_mem_cons] at hreg
    rw [GoodRun, SafeRun, ← output_iff hdoc hreg.1 hfilled]
    constructor
    · rintro ⟨m', written, hout, haddr, hrest⟩
      exact ⟨⟨m', written, hout, haddr⟩,
        (ih hreg.2 (output_filled hreg.1 hfilled hout)).mp hrest⟩
    · rintro ⟨⟨m', written, hout, haddr⟩, hrest⟩
      exact ⟨m', written, hout, haddr, (ih hreg.2 (output_filled hreg.1 hfilled hout)).mpr hrest⟩

/-- From an empty mapping, a run addresses every element exactly when all its calls are safe. -/
theorem goodRun_iff (hdoc : h.Documented) {calls : List (Call D)} (hreg : ∀ c ∈ calls, c.Regular) :
    GoodRun h [] [] calls ↔ SafeRun [] calls := by
  refine goodRun_iff_of_filled hdoc hreg ?_
  rintro i x ⟨⟨b, hb, -⟩, -⟩
  cases hb

end

/-- Half of a row of four cells. -/
def half {D : Type} (source iteration start : ℤ) (dataspace : Option D) : Block D :=
  ⟨source, iteration, 0, [start], [start + 1], [4], [(0, 0)], dataspace, false⟩

/-- The blocks of a variable, all filed under the iterations they are for. -/
def filed {D : Type} (layout : Layout) (blocks : List (Block D)) : Variable D :=
  blocks.foldl (fun v b => (v.attachBlock (some b)).1) (Variable.new true layout)

def halves : Layout := ⟨4, [⟨2, 4, (0, 0)⟩]⟩

def indices : Variable (List Int32) := filed halves [half 0 0 0 (some [2, 0]), half 1 0 2 (some [3, 1])]

def field (iteration : ℤ) : Variable Unit :=
  filed halves [half 0 iteration 0 (some ()), half 1 iteration 2 (some ())]

/-- A row is written in iteration 0, with its indices, and again in the next one. -/
def rows : List (Call Unit) := [⟨0, some indices, [field 0]⟩, ⟨1, none, [field 1]⟩]

/-- A grid of two by two. -/
def gridBlock : Block Unit :=
  ⟨0, 0, 0, [0, 0], [1, 1], [2, 2], [(0, 0), (0, 0)], some (), false⟩

def grid : Variable Unit := filed ⟨4, [⟨2, 2, (0, 0)⟩, ⟨2, 2, (0, 0)⟩]⟩ [gridBlock]

theorem regular_half {D : Type} (source iteration : ℤ) {start : ℤ} (dataspace : Option D)
    (h : 0 ≤ start ∧ start ≤ 2) : Regular halves.dimensions (half source iteration start dataspace) := by
  refine ⟨rfl, rfl, rfl, ?_, ?_⟩
  · intro x hx
    rw [List.mem_singleton.mp hx]
    omega
  · intro e he
    rw [List.mem_singleton.mp he]
    dsimp only
    omega

theorem regular_indices : ∀ b ∈ indices.blocksByIteration 0, Regular halves.dimensions b := by
  intro b hb
  have hmem : b ∈ [half 0 0 0 (some [2, 0]), half 1 0 2 (some [3, 1])] := hb
  rcases List.mem_pair.mp hmem with rfl | rfl <;> exact regular_half _ _ _ (by decide)

theorem regular_field (iteration : ℤ) :
    ∀ b ∈ (field iteration).blocksByIteration iteration, Regular halves.dimensions b := by
  intro b hb
  have hmem : b ∈ [half 0 iteration 0 (some ()), half 1 iteration 2 (some ())] :=
    List.mem_of_mem_filter hb
  rcases List.mem_pair.mp hmem with rfl | rfl <;> exact regular_half _ _ _ (by decide)

theorem regular_rows : ∀ c ∈ rows, c.Regular := by
  intro c hc
  rcases List.mem_pair.mp hc with rfl | rfl
  · refine ⟨?_, ?_⟩
    · rintro v ⟨⟩
      exact regular_indices
    · intro v hv
      rw [List.mem_singleton.mp hv]
      exact regular_field 0
  · refine ⟨?_, ?_⟩
    · rintro v ⟨⟩
    · intro v hv
      rw [List.mem_singleton.mp hv]
      exact regular_field 1

theorem addressable_half (source iteration : ℤ) {start : ℤ} (hstart : 0 ≤ start)
    (hcells : ∀ k < 2, ∃ x < 4, IsCell (cellsOf (some indices)) (start.toNat + k) x) :
    Addressable (cellsOf (some indices)) [4] (half source iteration start (some ())) := by
  refine ⟨by decide, by decide, .inr ⟨2, 4, ?_, rfl, by decide, hstart, hcells⟩⟩
  simp [half, Block.extents]

theorem safe_field (iteration : ℤ) {v : Variable Unit} (hv : v ∈ [field iteration]) :
    ∀ first ∈ (v.blocksByIteration iteration).head?, ∀ b ∈ v.blocksByIteration iteration,
      Addressable (cellsOf (some indices)) first.globalDims b := by
  rw [List.mem_singleton.mp hv]
  intro first hfirst b hb
  have hhalf : ∀ b ∈ (field iteration).blocksByIteration iteration,
      b = half 0 iteration 0 (some ()) ∨ b = half 1 iteration 2 (some ()) := by
    intro b hb
    exact List.mem_pair.mp (List.mem_of_mem_filter hb)
  have hdims : first.globalDims = [4] := by
    rcases hhalf first (List.mem_of_mem_head? hfirst) with rfl | rfl <;> rfl
  rw [hdims]
  rcases hhalf b hb with rfl | rfl
  · exact addressable_half _ _ (by decide) (by decide)
  · exact addressable_half _ _ (by decide) (by decide)

theorem goodRun_rows : GoodRun (Hdf5.reference ℕ) [] [] rows := by
  refine (goodRun_iff (Hdf5.reference_documented ℕ) regular_rows).mpr ⟨?_, ?_, trivial⟩
  · intro _
    refine ⟨fun _ => ⟨indices, _, _, rfl, rfl, rfl, ?_⟩, fun v hv _ => safe_field 0 hv⟩
    intro x hx
    rcases List.mem_pair.mp hx with rfl | rfl <;> exact ⟨by decide, by decide, by decide⟩
  · intro _
    exact ⟨fun h => absurd h (by decide), fun v hv _ => safe_field 1 hv⟩

/-- Two elements are selected for the four items of a grid, and with no block of indices the first
one of none is taken. -/
theorem grid_not_addressed : Call.Regular ⟨0, some indices, [grid]⟩ ∧
    output (Hdf5.reference ℕ) [] ⟨0, some indices, [grid]⟩ = .ok ([2, 0, 3, 1], [⟨gridBlock,
      some ([2, 2], [[0, 0], [0, 1], [1, 0], [1, 1]]), some ([2, 2], [[2, 0], [3, 1]])⟩]) ∧
    ¬ GoodRun (Hdf5.reference ℕ) [] [] [⟨0, some indices, [grid]⟩] ∧
    output (Hdf5.reference ℕ) [] ⟨0, some (filed halves []), [field 0]⟩ = .error .emptyList := by
  have hout : output (Hdf5.reference ℕ) [] ⟨0, some indices, [grid]⟩ = .ok ([2, 0, 3, 1], [⟨gridBlock,
      some ([2, 2], [[0, 0], [0, 1], [1, 0], [1, 1]]), some ([2, 2], [[2, 0], [3, 1]])⟩]) := rfl
  refine ⟨⟨?_, ?_⟩, hout, ?_, rfl⟩
  · rintro v ⟨⟩
    exact regular_indices
  · intro v hv b hb
    rw [List.mem_singleton.mp hv] at hb ⊢
    have hmem : b ∈ [gridBlock] := List.mem_of_mem_filter hb
    rw [List.mem_singleton.mp hmem]
    exact ⟨rfl, rfl, rfl, by decide, by decide⟩
  · rintro ⟨m', written, hok, haddr, -⟩
    rw [hout] at hok
    cases hok
    obtain ⟨mem, file, -, hfile, -, hcount, -⟩ := haddr _ (List.mem_singleton_self _)
    cases hfile
    exact absurd hcount (by decide)

end HDF5Store
end Damaris
