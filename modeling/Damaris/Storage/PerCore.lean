import Damaris.Storage.Hdf5
import Damaris.Server.BlockSizes

/-!
# One dataset a block

In the mode that writes a file for each core, a block gets a dataset of its own, in the size of
the block. Ghost zones are taken off in memory only. The names of files and datasets, and the
types of items, are not part of the model.
-/
namespace Damaris

open Data RowMajor

namespace Data

variable {D : Type*}

/-- The range that `GetBlocksByIteration` finds. -/
def Variable.blocksByIteration (v : Variable D) (iteration : ℤ) : List (Block D) :=
  v.blocks.elems.filter fun b => b.iteration = iteration

/-- Non-time-varying variables are written in the first iteration only. -/
def Variable.writtenIn (v : Variable D) (iteration : ℤ) : Bool :=
  v.timeVarying || !decide (iteration > 0)

namespace Block

/-- `GetStartIndex`: zero, and a warning, beyond the dimensions. -/
def startIndex (b : Block D) (i : ℕ) : ℤ := b.lowerBounds.getD i 0

/-- `GetEndIndex`. -/
def endIndex (b : Block D) (i : ℕ) : ℤ := b.upperBounds.getD i 0

/-- The sizes along so many dimensions, as HDF5 is given them. -/
def sizes (b : Block D) (rank : ℕ) : List ℕ :=
  (List.range rank).map fun i => toSize (b.endIndex i - b.startIndex i + 1)

theorem length_extents {b : Block D} {rank : ℕ} (hl : b.lowerBounds.length = rank)
    (hu : b.upperBounds.length = rank) : b.extents.length = rank := by
  rw [extents, List.length_zipWith, hl, hu, min_self]

theorem getElem_extents (b : Block D) {i : ℕ} (h : i < b.extents.length) :
    b.extents[i] = b.endIndex i - b.startIndex i + 1 := by
  have hlen := h
  rw [extents, List.length_zipWith] at hlen
  have hlower : i < b.lowerBounds.length := by omega
  have hupper : i < b.upperBounds.length := by omega
  simp [extents, endIndex, startIndex, hlower, hupper]

theorem sizes_eq {b : Block D} {rank : ℕ} (hl : b.lowerBounds.length = rank)
    (hu : b.upperBounds.length = rank) (hrange : ∀ e ∈ b.extents, 0 ≤ e ∧ e < 2 ^ 63) :
    b.sizes rank = b.extents.map Int.toNat := by
  have hlen := length_extents hl hu
  refine List.ext_getElem (by simp [sizes, hlen]) ?_
  intro i hi hi'
  have hlt : i < b.extents.length := by simpa using hi'
  have hextent := b.getElem_extents hlt
  have he := hrange _ (List.getElem_mem hlt)
  simp only [sizes, List.getElem_map, List.getElem_range, ← hextent]
  unfold toSize
  omega

end Block
end Data

namespace HDF5Store

variable {S V : Type}

/-- The dataspaces of one `H5Dwrite`, and the dataset after it. -/
structure Written (S V : Type) where
  memSpace : S
  fileSpace : S
  dataset : List V
  deriving DecidableEq

/-- `UpdateGhostZones`: the memory space, the dimensions it leaves behind, and whether the call
succeeded. -/
def updateGhostZones (h : Hdf5 S V) (l : Layout) (memSpace : S) (localDim : List ℕ) :
    S × List ℕ × Bool :=
  let offset := l.along.map fun d => toSize (toInt d.ghost.1)
  let localDim := List.zipWith
    (fun (n : ℕ) d => toSize ((n : ℤ) - toInt d.ghost.1 - toInt d.ghost.2)) localDim l.along
  match h.selectHyperslab memSpace offset localDim with
  | none => (memSpace, localDim, false)
  | some memSpace => (memSpace, localDim, true)

/-- The loop body over blocks of `OutputPerCore`: `none` when HDF5 creates no dataspace. A write that
fails is reported, and leaves the dataset as it was created. -/
def outputBlock (h : Hdf5 S V) (l : Layout) (b : Block (List V)) : Option (Written S V) :=
  let blockDim := b.sizes l.dimensions
  let localDims := blockDim
  match h.createSimple localDims, h.createSimple blockDim with
  | some fileSpace, some memSpace =>
    let dataset := h.created fileSpace
    let memSpace := (updateGhostZones h l memSpace blockDim).1
    let fileSpace := h.selectAll fileSpace
    some ⟨memSpace, fileSpace,
      (b.dataspace.bind fun ptr => h.write memSpace fileSpace ptr dataset).getD dataset⟩
  | _, _ => none

/-- `OutputPerCore`: what is written of each block, with the layout of its variable. -/
def outputPerCore (h : Hdf5 S V) (vars : List (Variable (List V))) (iteration : ℤ) :
    List (Layout × Block (List V) × Option (Written S V)) :=
  (vars.filter fun v => v.writtenIn iteration).flatMap fun v =>
    (v.blocksByIteration iteration).map fun b => (v.layout, b, outputBlock h v.layout b)

/-! ## Ghosts are taken off in memory only -/

/-- A block with its data, where the ghosts of the layout fit in. -/
structure Holds (l : Layout) (b : Block (List V)) (data : List V) : Prop where
  lower : b.lowerBounds.length = l.dimensions
  upper : b.upperBounds.length = l.dimensions
  ghosts : List.Forall₂ (fun e d => ((d.ghost.1 + d.ghost.2 : ℕ) : ℤ) ≤ e) b.extents l.along
  range : ∀ e ∈ b.extents, e < 2 ^ 63
  dataspace : b.dataspace = some data
  items : (data.length : ℤ) = b.extents.prod

/-- The selections are of one size, and the dataset holds the items that are no ghosts. -/
def Written.Matches (h : Hdf5 S V) (l : Layout) (b : Block (List V)) (data : List V)
    (w : Written S V) : Prop :=
  (h.selected w.memSpace).length = (h.selected w.fileSpace).length ∧
    w.dataset = itemsInside (b.extents.map Int.toNat) (l.along.map Dimension.ghost) data

section

variable {h : Hdf5 S V} {l : Layout} {b : Block (List V)} {data : List V}

theorem Holds.nonneg (hb : Holds l b data) : ∀ e ∈ b.extents, 0 ≤ e := by
  intro e he
  obtain ⟨i, hi, rfl⟩ := List.getElem_of_mem he
  have hfit := List.forall₂_iff_get.mp hb.ghosts
  have hle := hfit.2 i hi (hfit.1 ▸ hi)
  exact le_trans (Int.natCast_nonneg _) hle

theorem Holds.sizes (hb : Holds l b data) : b.sizes l.dimensions = b.extents.map Int.toNat :=
  Block.sizes_eq hb.lower hb.upper fun e he => ⟨hb.nonneg e he, hb.range e he⟩

theorem Holds.length_data (hb : Holds l b data) :
    data.length = (b.extents.map Int.toNat).prod := by
  have hcast : ((b.extents.map Int.toNat).prod : ℤ) = b.extents.prod := by
    rw [Nat.cast_list_prod, List.map_map]
    congr 1
    conv_rhs => rw [← List.map_id b.extents]
    refine List.map_congr_left ?_
    intro e he
    exact Int.toNat_of_nonneg (hb.nonneg e he)
  have hitems := hb.items
  rw [← hcast] at hitems
  exact_mod_cast hitems

theorem Holds.fits (hb : Holds l b data) :
    List.Forall₂ (fun n (g : ℕ × ℕ) => g.1 + g.2 ≤ n) (b.extents.map Int.toNat)
      (l.along.map Dimension.ghost) := by
  rw [List.forall₂_map_left_iff, List.forall₂_map_right_iff]
  refine hb.ghosts.imp ?_
  intro e d hle
  omega

/-- The memory space keeps its extents, and either its selection or the hyperslab. -/
theorem extents_updateGhostZones (hdoc : h.Documented) (s : S) (dims : List ℕ) :
    h.extents (updateGhostZones h l s dims).1 = h.extents s ∧
      (h.selected (updateGhostZones h l s dims).1 = h.selected s ∨
        h.selected (updateGhostZones h l s dims).1 =
          slab (l.along.map fun d => toSize (toInt d.ghost.1))
            (List.zipWith (fun (n : ℕ) d => toSize ((n : ℤ) - toInt d.ghost.1 - toInt d.ghost.2)) dims
              l.along)) := by
  unfold updateGhostZones
  dsimp only
  split
  · exact ⟨rfl, .inl rfl⟩
  · rename_i s' hs
    obtain ⟨hextents, hselected⟩ := hdoc.selectHyperslab _ _ _ _ hs
    exact ⟨hextents, .inr hselected⟩

theorem outputBlock_le (hdoc : h.Documented) (hb : Holds l b data) (hrank : l.dimensions ≤ Hdf5.maxRank) :
    ∃ s, h.extents s = b.extents.map Int.toNat ∧ h.selected s = points (b.extents.map Int.toNat) ∧
      outputBlock h l b = some ⟨(updateGhostZones h l s (b.extents.map Int.toNat)).1, h.selectAll s,
        (h.write (updateGhostZones h l s (b.extents.map Int.toNat)).1 (h.selectAll s) data
          (h.created s)).getD (h.created s)⟩ := by
  have hlen : (b.extents.map Int.toNat).length ≤ Hdf5.maxRank := by
    rw [List.length_map, hb.ghosts.length_eq]
    exact hrank
  obtain ⟨s, hcreate, hextents, hselected⟩ := hdoc.createSimple_le _ hlen (Hdf5.unlimited_notMem hb.range)
  refine ⟨s, hextents, hselected, ?_⟩
  simp only [outputBlock, hb.sizes, hcreate, hb.dataspace, Option.bind_some]

theorem outputBlock_gt (hdoc : h.Documented) (hrank : Hdf5.maxRank < l.dimensions) :
    outputBlock h l b = none := by
  have hlen : Hdf5.maxRank < (b.sizes l.dimensions).length := by
    rw [Block.sizes, List.length_map, List.length_range]
    exact hrank
  simp only [outputBlock, hdoc.createSimple_gt _ (.inl hlen)]

/-- Whatever becomes of the write, the dataset keeps the size it was created with. -/
theorem length_write (hdoc : h.Documented) (mem file s : S) :
    ((h.write mem file data (h.created s)).getD (h.created s)).length = (h.extents s).prod := by
  cases hwrite : h.write mem file data (h.created s) with
  | none => exact hdoc.created s
  | some d' =>
    rw [Option.getD_some, hdoc.write_length _ _ _ _ _ hwrite]
    exact hdoc.created s

/-- What `UpdateGhostZones` selects is the block without its ghosts. -/
theorem selected_updateGhostZones (hdoc : h.Documented) (hb : Holds l b data)
    (hint : ∀ d ∈ l.along, d.ghost.1 < 2 ^ 31 ∧ d.ghost.2 < 2 ^ 31) {s : S}
    (hdone : (updateGhostZones h l s (b.extents.map Int.toNat)).2.2 = true) :
    h.selected (updateGhostZones h l s (b.extents.map Int.toNat)).1 =
      (points (b.extents.map Int.toNat)).filter
        (inside (b.extents.map Int.toNat) (l.along.map Dimension.ghost)) := by
  have hoffset : l.along.map (fun d => toSize (toInt d.ghost.1)) =
      (l.along.map Dimension.ghost).map Prod.fst := by
    rw [List.map_map]
    refine List.map_congr_left ?_
    intro d hd
    have hlt := (hint d hd).1
    rw [(toInt_eq_self_iff (Int.natCast_nonneg _)).mpr (by omega), toSize_of_lt (by omega)]
    rfl
  have hcount : List.zipWith (fun (n : ℕ) d => toSize ((n : ℤ) - toInt d.ghost.1 - toInt d.ghost.2))
      (b.extents.map Int.toNat) l.along = List.zipWith (fun n (g : ℕ × ℕ) => n - g.1 - g.2)
        (b.extents.map Int.toNat) (l.along.map Dimension.ghost) := by
    rw [List.zipWith_map_right]
    refine List.ext_getElem (by simp) ?_
    intro i hi hi'
    rw [List.getElem_zipWith, List.getElem_zipWith]
    have hlt := hint _ (List.getElem_mem (by simp at hi; omega : i < l.along.length))
    have hrange := hb.range _ (List.getElem_mem (by simp at hi; omega : i < b.extents.length))
    have hle := (List.forall₂_iff_get.mp hb.ghosts).2 i (by simp at hi; omega) (by simp at hi; omega)
    simp only [List.get_eq_getElem] at hle
    rw [(toInt_eq_self_iff (Int.natCast_nonneg _)).mpr (by omega),
      (toInt_eq_self_iff (Int.natCast_nonneg _)).mpr (by omega), List.getElem_map]
    unfold toSize
    omega
  unfold updateGhostZones at hdone ⊢
  dsimp only at hdone ⊢
  split at hdone
  · cases hdone
  · rename_i s' hs
    rw [filter_inside hb.fits, ← hoffset, ← hcount]
    exact (hdoc.selectHyperslab _ _ _ _ hs).2

/-- With no ghosts the whole memory is selected, whether the call succeeds or not. -/
theorem selected_updateGhostZones_of_none (hdoc : h.Documented) (hb : Holds l b data)
    (hnone : ∀ d ∈ l.along, d.ghost = (0, 0)) {s : S}
    (hs : h.selected s = points (b.extents.map Int.toNat)) :
    h.selected (updateGhostZones h l s (b.extents.map Int.toNat)).1 =
      points (b.extents.map Int.toNat) := by
  obtain ⟨-, hkept | hslab⟩ := extents_updateGhostZones hdoc s (b.extents.map Int.toNat) (l := l)
  · rw [hkept, hs]
  · have hcount : List.zipWith (fun (n : ℕ) d => toSize ((n : ℤ) - toInt d.ghost.1 - toInt d.ghost.2))
        (b.extents.map Int.toNat) l.along = b.extents.map Int.toNat := by
      refine List.ext_getElem (by simp [hb.ghosts.length_eq]) ?_
      intro i hi hi'
      rw [List.getElem_zipWith, hnone _ (List.getElem_mem _)]
      have hlt := hb.range _ (List.getElem_mem (by simpa using hi' : i < b.extents.length))
      have hzero : toInt ((0 : ℕ) : ℤ) = 0 := rfl
      rw [hzero, sub_zero, sub_zero, toSize_of_lt]
      rw [List.getElem_map]
      omega
    rw [hslab, hcount]
    refine slab_of_none (by simp [hb.ghosts.length_eq]) ?_
    intro o ho
    obtain ⟨d, hd, rfl⟩ := List.mem_map.mp ho
    rw [hnone d hd]
    rfl

/-- With no ghosts, a block is written item by item. -/
theorem matches_of_none (hdoc : h.Documented) (hb : Holds l b data)
    (hrank : l.dimensions ≤ Hdf5.maxRank) (hnone : ∀ d ∈ l.along, d.ghost = (0, 0)) :
    ∃ w, outputBlock h l b = some w ∧ w.Matches h l b data := by
  obtain ⟨s, hextents, hselected, hw⟩ := outputBlock_le hdoc hb hrank
  set dims := b.extents.map Int.toNat with hdims
  have hmem := selected_updateGhostZones_of_none hdoc hb hnone hselected
  have hmemextents := (extents_updateGhostZones hdoc s dims (l := l)).1.trans hextents
  obtain ⟨hfileextents, hfile⟩ := hdoc.selectAll s
  rw [hextents] at hfileextents hfile
  set mem := (updateGhostZones h l s dims).1 with hmemdef
  have hvalidmem : h.Valid mem := by
    intro p hp
    rw [hmemextents, ← hmem]
    exact hp
  have hvalidfile : h.Valid (h.selectAll s) := by
    intro p hp
    rw [hfileextents, ← hfile]
    exact hp
  obtain ⟨d', hwrite, hitems⟩ := hdoc.write_eq mem (h.selectAll s) data (h.created s)
    (by rw [hmem, hfile]) hvalidmem hvalidfile (hfile ▸ nodup_points dims)
    (by rw [hmemextents, hb.length_data]) (by rw [hfileextents, hdoc.created, hextents])
  refine ⟨_, hw, by rw [hmem, hfile], ?_⟩
  have hghosts : ∀ g ∈ l.along.map Dimension.ghost, g = (0, 0) := by
    intro g hg
    obtain ⟨d, hd, rfl⟩ := List.mem_map.mp hg
    exact hnone d hd
  have hlength : d'.length = data.length := by
    rw [hdoc.write_length _ _ _ _ _ hwrite, hdoc.created, hextents, hb.length_data]
  rw [hwrite, Option.getD_some, itemsInside_of_none hghosts hb.length_data]
  refine List.ext_getElem? ?_
  intro k
  by_cases hk : k < (points dims).length
  · have hpoint := List.getElem?_eq_getElem hk
    have hitem := hitems k _ _ (by rw [hmem]; exact hpoint) (by rw [hfile]; exact hpoint)
    rwa [hmemextents, hfileextents, index_of_getElem? hpoint] at hitem
  · rw [length_points, ← hb.length_data] at hk
    rw [List.getElem?_eq_none (by rw [hlength]; omega), List.getElem?_eq_none (by omega)]

/-- A block with no items is written, whatever the ghosts are. -/
theorem matches_of_empty (hdoc : h.Documented) (hb : Holds l b data)
    (hrank : l.dimensions ≤ Hdf5.maxRank) (hempty : 0 ∈ b.extents) :
    ∃ w, outputBlock h l b = some w ∧ w.Matches h l b data := by
  obtain ⟨s, hextents, hselected, hw⟩ := outputBlock_le hdoc hb hrank
  have hdims : (b.extents.map Int.toNat).prod = 0 := by
    rw [List.prod_eq_zero_iff]
    exact List.mem_map.mpr ⟨0, hempty, rfl⟩
  have hmem : (h.selected (updateGhostZones h l s (b.extents.map Int.toNat)).1).length = 0 := by
    obtain ⟨-, hkept | hslab⟩ := extents_updateGhostZones hdoc s (b.extents.map Int.toNat) (l := l)
    · rw [hkept, hselected, length_points, hdims]
    · obtain ⟨i, hi, hzero⟩ := List.getElem_of_mem hempty
      have hfit := List.forall₂_iff_get.mp hb.ghosts
      have hle := hfit.2 i hi (hfit.1 ▸ hi)
      simp only [List.get_eq_getElem, hzero] at hle
      rw [hslab, length_slab, List.prod_eq_zero_iff, List.mem_iff_getElem]
      refine ⟨i, by simpa using ⟨hi, hfit.1 ▸ hi⟩, ?_⟩
      have hnone : l.along[i].ghost = (0, 0) := Prod.ext (by dsimp; omega) (by dsimp; omega)
      rw [List.getElem_zipWith, List.getElem_map, hzero, hnone]
      rfl
  have hnil : ∀ {d : List V}, d.length = 0 → ∀ {gs : List (ℕ × ℕ)},
      d = itemsInside (b.extents.map Int.toNat) gs data := by
    intro d hd gs
    have hpoints : points (b.extents.map Int.toNat) = [] :=
      List.length_eq_zero_iff.mp (by rw [length_points, hdims])
    rw [List.length_eq_zero_iff.mp hd, itemsInside, hpoints]
    rfl
  refine ⟨_, hw, ?_, hnil ?_⟩
  · rw [hmem, (hdoc.selectAll s).2, length_points, hextents, hdims]
  · rw [length_write hdoc, hextents, hdims]

/-- Variables without ghosts are written, every block of them. -/
theorem outputPerCore_matches (hdoc : h.Documented) {vars : List (Variable (List V))} {iteration : ℤ}
    (hheld : ∀ v ∈ vars, ∀ b ∈ v.blocksByIteration iteration, ∃ data, Holds v.layout b data)
    (hrank : ∀ v ∈ vars, v.layout.dimensions ≤ Hdf5.maxRank)
    (hnone : ∀ v ∈ vars, ∀ d ∈ v.layout.along, d.ghost = (0, 0)) :
    ∀ r ∈ outputPerCore h vars iteration, ∃ w data, r.2.2 = some w ∧
      r.2.1.dataspace = some data ∧ w.Matches h r.1 r.2.1 data := by
  intro r hr
  obtain ⟨v, hv, hmem⟩ := List.mem_flatMap.mp hr
  obtain ⟨b, hb, rfl⟩ := List.mem_map.mp hmem
  have hvars := List.mem_of_mem_filter hv
  obtain ⟨data, hholds⟩ := hheld v hvars b hb
  obtain ⟨w, hw, hmatches⟩ := matches_of_none hdoc hholds (hrank v hvars) (hnone v hvars)
  exact ⟨w, data, hw, hholds.dataspace, hmatches⟩

/-- A block is written as it should be exactly when its layout has no ghosts, or it has no items. -/
theorem outputBlock_matches_iff (hdoc : h.Documented) (hb : Holds l b data) :
    (∃ w, outputBlock h l b = some w ∧ w.Matches h l b data) ↔
      l.dimensions ≤ Hdf5.maxRank ∧ (0 ∈ b.extents ∨ ∀ d ∈ l.along, d.ghost = (0, 0)) := by
  constructor
  · rintro ⟨w, hw, -, hdataset⟩
    have hrank : l.dimensions ≤ Hdf5.maxRank := by
      by_contra hgt
      rw [outputBlock_gt hdoc (by omega)] at hw
      cases hw
    obtain ⟨s, hextents, -, hw'⟩ := outputBlock_le hdoc hb hrank
    rw [hw, Option.some.injEq] at hw'
    -- The dataset has room for the ghosts, too.
    have hsizes : (List.zipWith (fun n (g : ℕ × ℕ) => n - g.1 - g.2) (b.extents.map Int.toNat)
        (l.along.map Dimension.ghost)).prod = (b.extents.map Int.toNat).prod := by
      rw [← length_itemsInside hb.fits hb.length_data, ← hdataset, hw', length_write hdoc, hextents]
    refine ⟨hrank, ?_⟩
    rcases (prod_margins_eq_iff hb.fits).mp hsizes with hzero | hnone
    · obtain ⟨e, he, hezero⟩ := List.mem_map.mp hzero
      have hnonneg := hb.nonneg e he
      have he0 : e = 0 := by omega
      exact .inl (he0 ▸ he)
    · refine .inr fun d hd => hnone d.ghost (List.mem_map_of_mem hd)
  · rintro ⟨hrank, hempty | hnone⟩
    · exact matches_of_empty hdoc hb hrank hempty
    · exact matches_of_none hdoc hb hrank hnone

end

/-- A row of four items, all of them the block's, or the outer two ghosts. -/
def row (ghost : ℕ × ℕ) : Layout := ⟨4, [⟨4, 4, ghost⟩]⟩

def rowBlock (ghost : ℕ × ℕ) : Block (List ℕ) :=
  (Block.new 0 0 0 (row ghost)).setDataSpace (some [5, 6, 7, 8])

theorem rowBlock_holds (ghost : ℕ × ℕ) (h : ghost.1 + ghost.2 ≤ 4) :
    Holds (row ghost) (rowBlock ghost) [5, 6, 7, 8] := by
  refine ⟨rfl, rfl, .cons ?_ .nil, ?_, rfl, rfl⟩
  · show ((ghost.1 + ghost.2 : ℕ) : ℤ) ≤ 4
    exact_mod_cast h
  · intro e he
    rw [List.mem_singleton.mp he]
    norm_num

theorem rowBlock_matches : ∃ w, outputBlock (Hdf5.reference ℕ) (row (0, 0)) (rowBlock (0, 0)) = some w ∧
    w.Matches (Hdf5.reference ℕ) (row (0, 0)) (rowBlock (0, 0)) [5, 6, 7, 8] :=
  (outputBlock_matches_iff (Hdf5.reference_documented ℕ) (rowBlock_holds (0, 0) (by decide))).mpr
    ⟨by decide, .inr (by decide)⟩

/-- The two inner items are selected in memory, four in the file, and none is written. -/
theorem rowBlock_ghosts : Holds (row (1, 1)) (rowBlock (1, 1)) [5, 6, 7, 8] ∧
    outputBlock (Hdf5.reference ℕ) (row (1, 1)) (rowBlock (1, 1)) =
      some ⟨([4], [[1], [2]]), ([4], [[0], [1], [2], [3]]), [0, 0, 0, 0]⟩ ∧
    ¬ ∃ w, outputBlock (Hdf5.reference ℕ) (row (1, 1)) (rowBlock (1, 1)) = some w ∧
      w.Matches (Hdf5.reference ℕ) (row (1, 1)) (rowBlock (1, 1)) [5, 6, 7, 8] := by
  have hout : outputBlock (Hdf5.reference ℕ) (row (1, 1)) (rowBlock (1, 1)) =
      some ⟨([4], [[1], [2]]), ([4], [[0], [1], [2], [3]]), [0, 0, 0, 0]⟩ := by decide
  refine ⟨rowBlock_holds (1, 1) (by decide), hout, ?_⟩
  rintro ⟨w, hw, hcount, -⟩
  rw [hout] at hw
  cases hw
  exact absurd hcount (by decide)

end HDF5Store
end Damaris
