import Damaris.Data.LayoutChecks
import Damaris.Storage.PerCore

/-!
# The sections of an unstructured mesh

The variables of an unstructured mesh give every source a list of sections, each of one cell
type. `AddBlocksToUnstructuredMesh` walks over the sections of a block of a field: it installs a
grid as the piece of every section and attaches a part of the buffer of the field to it. The grids
are kept from one data set to the next.
-/
namespace Damaris.Paraview
open Data BoxLayout

/-! ## The mesh -/

/-- The cell types of `vtkCellType.h` that the mesh looks at. -/
inductive VtkType
  | line
  | triangle
  | quad
  | tetra
  | pyramid
  | wedge
  | hexahedron
  | polygon
  | polyhedron
  | other (code : ℤ)
  deriving DecidableEq

def strideofVtkType : VtkType → ℤ
  | .line => 2
  | .triangle => 3
  | .quad => 4
  | .tetra => 4
  | .pyramid => 5
  | .wedge => 6
  | .hexahedron => 8
  | .polygon => -1
  | .polyhedron => -1
  | .other _ => -2

structure MeshSection where
  type : VtkType
  size : ℕ
  deriving DecidableEq

structure Cell where
  type : VtkType
  vertices : List (BitVec 64)
  deriving DecidableEq

structure Grid where
  points : ℕ
  cells : List Cell
  deriving DecidableEq

/-- What the variables of the mesh hold for one source: the number of coordinates, the sections,
what the connectivity reads as, and the start index of the section sizes, which is the number of
sections of the sources before. -/
structure MeshBlock where
  coordItems : ℕ
  sections : List MeshSection
  connectivity : ℕ → BitVec 64
  startIndex : ℕ

/-- A mesh, with the blocks of the sources that the server looks after from `low` on. The sections
of different sources are numbered apart. -/
structure Mesh where
  low : ℤ
  numCoord : ℕ
  topology : ℤ
  coordType : ValueType
  sectionVtkType : ValueType
  sectionSizesType : ValueType
  connectivityType : ValueType
  /-- The offset of the vertex global ids. -/
  offset : ℤ
  blocks : List MeshBlock
  apart : blocks.Pairwise fun a b => a.startIndex + a.sections.length ≤ b.startIndex

namespace Mesh

variable (m : Mesh)

def localServerSourceIndex (source : ℤ) : ℕ := (source - m.low).toNat

/-- The block of a source in the range of the server. -/
def block (source : ℤ) : Option MeshBlock :=
  if m.low ≤ source then m.blocks[m.localServerSourceIndex source]? else none

/-- `vect_server_sctn_offsets_`: the sections of the sources before on this server. -/
def sectionOffset (i : ℕ) : ℕ := ((m.blocks.take i).map fun b => b.sections.length).sum

/-- The cells of one section; `size_t` and `vtkIdType` both have 64 bits. -/
def insertCells (connectivity : ℕ → BitVec 64) (offset : ℤ) (sectn_offset : ℕ) (sec : MeshSection) :
    List Cell :=
  (List.range sec.size).map fun t1 => ⟨sec.type,
    (List.range (strideofVtkType sec.type).toNat).map fun t2 =>
      connectivity (sectn_offset + t1 * (strideofVtkType sec.type).toNat + t2) +
        BitVec.ofInt 64 offset⟩

/-- The loop on sections of `SetVtkConnections`; `none` is an overflow of the `int` product. -/
def insertSections (connectivity : ℕ → BitVec 64) (offset : ℤ) :
    ℕ → List MeshSection → Option (List Cell × Bool)
  | _, [] => some ([], true)
  | sectn_offset, sec :: rest =>
    if 0 < strideofVtkType sec.type then
      if sec.size * strideofVtkType sec.type < 2 ^ 31 then
        (insertSections connectivity offset
          (sectn_offset + sec.size * (strideofVtkType sec.type).toNat) rest).map
            fun r => (insertCells connectivity offset sectn_offset sec ++ r.1, r.2)
      else none
    else if sec.type = .polygon then some ([], false)
    else if sec.type = .polyhedron then some ([], false)
    else insertSections connectivity offset sectn_offset rest

def setVtkConnections (blk : MeshBlock) : Option (List Cell × Bool) :=
  if m.sectionVtkType ≠ .int then some ([], false)
  else if m.sectionSizesType ≠ .int then some ([], false)
  else if m.connectivityType ≠ .long then some ([], false)
  else insertSections blk.connectivity m.offset 0 blk.sections

/-- The number of vertices of `SetVertexCoords`. -/
def setVertexCoords (blk : MeshBlock) : Option ℕ :=
  if m.coordType ≠ .double then none
  else if m.topology = 3 then
    if blk.coordItems % 3 ≠ 0 then none else some (blk.coordItems / 3)
  else if m.topology = 2 then
    if blk.coordItems % 2 ≠ 0 then none else some (blk.coordItems / 2)
  else none

/-- What `GetVtkGrid` puts into a new grid, and whether it returns the grid. -/
def fill (blk : MeshBlock) : Option (Grid × Bool) :=
  if m.numCoord ≠ 1 then some (⟨0, []⟩, false)
  else match m.setVertexCoords blk with
    | none => some (⟨0, []⟩, false)
    | some n =>
      -- `SetGlobalIDs` wants the number of vertices
      if n = 0 then some (⟨0, []⟩, false)
      else (m.setVtkConnections blk).map fun r => (⟨n, r.1⟩, r.2)

end Mesh

/-- The grids of the mesh, which section `IsNull` looks at next, and the pieces of the data set,
each with the number of its grid. -/
structure Scene where
  grids : ℕ → Option Grid
  lastSource : ℤ
  timesCalled : ℕ
  pieces : ℕ → Option ℕ

namespace Scene

def init : Scene := ⟨fun _ => none, -1, 0, fun _ => none⟩

def newDataSet (sc : Scene) : Scene := { sc with pieces := fun _ => none }

/-- What `IsNull` does before it looks. -/
def resetSectionOffset (sc : Scene) (source : ℤ) (sects : ℕ) : Scene :=
  if sects ≤ sc.timesCalled ∨ source ≠ sc.lastSource then
    { sc with timesCalled := 0, lastSource := source }
  else sc

variable (m : Mesh) (source : ℤ) (blk : MeshBlock)

/-- `GetVtkGrid`, which returns the number of a grid, or null. -/
def getVtkGrid (sc : Scene) : Option (Scene × Option ℕ) :=
  let sc := sc.resetSectionOffset source blk.sections.length
  let offset := m.sectionOffset (m.localServerSourceIndex source) + sc.timesCalled
  let sc := { sc with timesCalled := sc.timesCalled + 1 }
  match sc.grids offset with
  | some _ => some (sc, some offset)
  | none => (m.fill blk).map fun r =>
    ({ sc with grids := Function.update sc.grids offset (some r.1) },
      if r.2 then some offset else none)

/-- The piece is made by the first variable of the mesh. -/
def install (piece : ℕ) (sc : Scene) : Option Scene :=
  match sc.pieces piece with
  | some _ => some sc
  | none => (sc.getVtkGrid m source blk).map fun r =>
    { r.1 with pieces := Function.update r.1.pieces piece r.2 }

end Scene

/-! ## The field -/

inductive Centering
  | nodal
  | zonal
  | undefined
  deriving DecidableEq

structure FieldVariable where
  type : ValueType
  centering : Centering
  isVector : Bool
  deriving DecidableEq

/-- What `SetArray` is called with, for which piece and grid. -/
structure Attached where
  piece : ℕ
  grid : ℕ
  offset : ℕ
  size : ℤ
  components : ℤ
  deriving DecidableEq

/-- The elements of the buffer that are attached. -/
def Attached.elements (a : Attached) : List ℕ := List.range' a.offset a.size.toNat

namespace FieldVariable

variable {D : Type*} (v : FieldVariable)

def getVectorSizeFromBlock (b : Block D) (dim : ℕ) : ℤ :=
  if v.isVector then toInt (b.endIndex dim - b.startIndex dim + 1) else 1

/-- The types that `InstantiateBufferAndAddToVtkGrid` has a case for. -/
def hasCase : ValueType → Bool
  | .short | .int | .integer | .long | .float | .real | .double => true
  | .char | .character | .string | .label | .undefined => false

/-- `some none` is a failure, `none` the use of a null grid. -/
def instantiateBufferAndAddToVtkGrid (piece : ℕ) (grid : Option ℕ) (offset : ℕ)
    (size components : ℤ) : Option (Option Attached) :=
  if hasCase v.type then
    match v.centering with
    | .undefined => some none
    | _ => grid.map fun g => some ⟨piece, g, offset, size, components⟩
  else some none

end FieldVariable

structure Outcome where
  scene : Scene
  attached : List Attached
  ok : Bool

variable {D : Type*} (m : Mesh) (v : FieldVariable)

/-- The loop over the sections of a block. -/
def addSections (source : ℤ) (blk : MeshBlock) (components : ℤ) :
    ℕ → ℕ → List MeshSection → Scene → Option Outcome
  | _, _, [], sc => some ⟨sc, [], true⟩
  | sectn_num, buffer_offset, sec :: rest, sc =>
    let piece := blk.startIndex + sectn_num
    (sc.install m source blk piece).bind fun sc =>
      -- the product is an `int`
      if toInt (sec.size * components) ≠ sec.size * components then none
      else match v.instantiateBufferAndAddToVtkGrid piece (sc.pieces piece) buffer_offset
          (sec.size * components) components with
        | none => none
        | some none => some ⟨sc, [], false⟩
        | some (some a) =>
          (addSections source blk components (sectn_num + 1) (buffer_offset + sec.size) rest sc).map
            fun out => { out with attached := a :: out.attached }

def addBlock (b : Block D) (sc : Scene) : Option Outcome :=
  match m.block b.source with
  | none => none
  | some blk =>
    addSections m v b.source blk (v.getVectorSizeFromBlock b 0) 0 0 blk.sections sc

/-- The loop over the blocks of an iteration. -/
def addBlocksToUnstructuredMesh : List (Block D) → Scene → Option Outcome
  | [], sc => some ⟨sc, [], true⟩
  | b :: bs, sc =>
    (addBlock m v b sc).bind fun out =>
      if out.ok then
        (addBlocksToUnstructuredMesh bs out.scene).map
          fun o => { o with attached := out.attached ++ o.attached }
      else some out

/-- The data sets one after the other, with any blocks of any variables. -/
inductive Reached (D : Type*) : Scene → Prop
  | init : Reached D .init
  | addBlock {sc : Scene} {out : Outcome} (h : Reached D sc) (v : FieldVariable) (b : Block D)
      (hout : Paraview.addBlock m v b sc = some out) : Reached D out.scene
  | newDataSet {sc : Scene} (h : Reached D sc) : Reached D sc.newDataSet

theorem Reached.addBlocks {m : Mesh} {v : FieldVariable} (bs : List (Block D)) {sc : Scene}
    {out : Outcome} (h : Reached m D sc) (hout : addBlocksToUnstructuredMesh m v bs sc = some out) :
    Reached m D out.scene := by
  induction bs generalizing sc out with
  | nil =>
    cases hout
    exact h
  | cons b bs ih =>
    rw [addBlocksToUnstructuredMesh, Option.bind_eq_some_iff] at hout
    obtain ⟨out₁, hadd, hout⟩ := hout
    have h₁ := h.addBlock v b hadd
    split at hout
    · obtain ⟨o, ho, rfl⟩ := Option.map_eq_some_iff.mp hout
      have hrest := ih h₁ ho
      exact hrest
    · cases hout
      exact h₁

/-! ## Filling a grid -/

section Filling

variable {connectivity : ℕ → BitVec 64} {offset : ℤ} {secs : List MeshSection}

/-- The number of vertices that a section takes up in the connectivity. -/
def MeshSection.words (sec : MeshSection) : ℕ := sec.size * (strideofVtkType sec.type).toNat

/-- The `int` products of the sections do not overflow. -/
def Fits (secs : List MeshSection) : Prop :=
  ∀ sec ∈ secs, sec.size * strideofVtkType sec.type < 2 ^ 31

def NoPolygons (secs : List MeshSection) : Prop :=
  ∀ sec ∈ secs, sec.type ≠ .polygon ∧ sec.type ≠ .polyhedron

def Supported (secs : List MeshSection) : Prop := ∀ sec ∈ secs, 0 < strideofVtkType sec.type

instance : Decidable (Fits secs) :=
  inferInstanceAs (Decidable (∀ sec ∈ secs, sec.size * strideofVtkType sec.type < 2 ^ 31))

instance : Decidable (Supported secs) :=
  inferInstanceAs (Decidable (∀ sec ∈ secs, 0 < strideofVtkType sec.type))

/-- The cells of one section, after those of the sections before. -/
def sectionCells (connectivity : ℕ → BitVec 64) (offset : ℤ) (o : ℕ) (secs : List MeshSection)
    (s : ℕ) : List Cell :=
  secs[s]?.elim [] (Mesh.insertCells connectivity offset
    (o + ((secs.take s).map MeshSection.words).sum))

theorem sectionCells_succ (o : ℕ) (sec : MeshSection) (s : ℕ) :
    sectionCells connectivity offset o (sec :: secs) (s + 1) =
      sectionCells connectivity offset (o + sec.words) secs s := by
  simp [sectionCells, Nat.add_assoc]

/-- Without polygons the loop on sections fails only by an overflow. -/
theorem insertSections_cases (h : NoPolygons secs) (o : ℕ) :
    (Fits secs ∧ ∃ cells, Mesh.insertSections connectivity offset o secs = some (cells, true)) ∨
      (¬ Fits secs ∧ Mesh.insertSections connectivity offset o secs = none) := by
  induction secs generalizing o with
  | nil => exact .inl ⟨List.forall_mem_nil _, [], rfl⟩
  | cons sec rest ih =>
    obtain ⟨⟨hpolygon, hpolyhedron⟩, hrest⟩ := List.forall_mem_cons.mp h
    have hfits : Fits (sec :: rest) ↔ sec.size * strideofVtkType sec.type < 2 ^ 31 ∧ Fits rest :=
      List.forall_mem_cons
    rw [hfits]
    by_cases hstride : 0 < strideofVtkType sec.type
    · by_cases hlt : sec.size * strideofVtkType sec.type < 2 ^ 31
      · simp only [Mesh.insertSections, if_pos hstride, if_pos hlt]
        obtain ⟨hr, cells, hcells⟩ | ⟨hr, hnone⟩ := ih hrest (o + sec.words)
        · exact .inl ⟨⟨hlt, hr⟩, _, congrArg _ hcells⟩
        · exact .inr ⟨fun hand => hr hand.2, congrArg _ hnone⟩
      · simp only [Mesh.insertSections, if_pos hstride, if_neg hlt]
        exact .inr ⟨fun hand => hlt hand.1, trivial⟩
    · have hlt : sec.size * strideofVtkType sec.type < 2 ^ 31 := by
        have hle : sec.size * strideofVtkType sec.type ≤ 0 :=
          mul_nonpos_of_nonneg_of_nonpos (by omega) (by omega)
        omega
      simp only [Mesh.insertSections, if_neg hstride, if_neg hpolygon, if_neg hpolyhedron]
      obtain ⟨hr, hsome⟩ | ⟨hr, hnone⟩ := ih hrest o
      · exact .inl ⟨⟨hlt, hr⟩, hsome⟩
      · exact .inr ⟨fun hand => hr hand.2, hnone⟩

/-- The grid of any section gets the cells of all sections. -/
theorem insertSections_cells (h : Supported secs) {o : ℕ} {r : List Cell × Bool}
    (hr : Mesh.insertSections connectivity offset o secs = some r) :
    r.1 = (List.range secs.length).flatMap (sectionCells connectivity offset o secs) := by
  induction secs generalizing o r with
  | nil =>
    cases hr
    rfl
  | cons sec rest ih =>
    obtain ⟨hsec, hrest⟩ := List.forall_mem_cons.mp h
    rw [Mesh.insertSections, if_pos hsec] at hr
    split_ifs at hr
    obtain ⟨r', hr', rfl⟩ := Option.map_eq_some_iff.mp hr
    have hzero : sectionCells connectivity offset o (sec :: rest) 0 =
        Mesh.insertCells connectivity offset o sec := rfl
    rw [List.length_cons, List.range_succ_eq_map, List.flatMap_cons, List.flatMap_map, hzero]
    simp only [sectionCells_succ]
    exact congrArg _ (ih hrest hr')

theorem length_sectionCells {o s : ℕ} (hs : s < secs.length) :
    (sectionCells connectivity offset o secs s).length = secs[s].size := by
  simp [sectionCells, Mesh.insertCells, hs]

theorem length_flatMap_sectionCells (o : ℕ) :
    ((List.range secs.length).flatMap (sectionCells connectivity offset o secs)).length =
      (secs.map MeshSection.size).sum := by
  rw [List.length_flatMap]
  congr 1
  refine List.ext_getElem (by simp) fun s hs hs' => ?_
  simp only [List.getElem_map, List.getElem_range]
  exact length_sectionCells (by simpa using hs)

/-- All cells together are those of each single section only if there is one section, or no
cell. -/
theorem flatMap_sectionCells_eq_iff (connectivity : ℕ → BitVec 64) (offset : ℤ)
    (secs : List MeshSection) (o : ℕ) :
    (∀ s < secs.length, (List.range secs.length).flatMap (sectionCells connectivity offset o secs) =
      sectionCells connectivity offset o secs s) ↔
      secs.length ≤ 1 ∨ ∀ sec ∈ secs, sec.size = 0 := by
  constructor
  · intro h
    -- every section would have the size of all sections together
    have hsize : ∀ s (hs : s < secs.length), secs[s].size = (secs.map MeshSection.size).sum := by
      intro s hs
      rw [← length_sectionCells hs, ← h s hs, length_flatMap_sectionCells]
    have hall : ∀ sec ∈ secs, sec.size = (secs.map MeshSection.size).sum := by
      intro sec hsec
      obtain ⟨s, hs, rfl⟩ := List.mem_iff_getElem.mp hsec
      exact hsize s hs
    have hsum : secs.length * (secs.map MeshSection.size).sum = (secs.map MeshSection.size).sum := by
      have hreplicate : secs.map MeshSection.size =
          List.replicate secs.length (secs.map MeshSection.size).sum :=
        List.eq_replicate_iff.mpr ⟨List.length_map _, List.forall_mem_map.mpr hall⟩
      have hsum := congrArg List.sum hreplicate
      rw [List.sum_replicate, smul_eq_mul] at hsum
      exact hsum.symm
    obtain hzero | hpos := Nat.eq_zero_or_pos (secs.map MeshSection.size).sum
    · exact .inr fun sec hsec => (hall sec hsec).trans hzero
    · have hlen := Nat.eq_of_mul_eq_mul_right hpos (hsum.trans (one_mul _).symm)
      exact .inl hlen.le
  · rintro (hlen | hzero) s hs
    · have hone : secs.length = 1 := by omega
      have hs₀ : s = 0 := by omega
      rw [hone, hs₀]
      simp
    · have hsum : (secs.map MeshSection.size).sum = 0 :=
        List.sum_eq_zero (List.forall_mem_map.mpr hzero)
      have hnil : (List.range secs.length).flatMap (sectionCells connectivity offset o secs) = [] :=
        List.eq_nil_of_length_eq_zero ((length_flatMap_sectionCells o).trans hsum)
      have hnil' : sectionCells connectivity offset o secs s = [] :=
        List.eq_nil_of_length_eq_zero
          ((length_sectionCells hs).trans (hzero _ (List.getElem_mem hs)))
      rw [hnil, hnil']

end Filling

/-! ## The grids over a run -/

/-- What `GetVtkGrid` checks, for all blocks of the mesh. -/
structure Mesh.Checked (m : Mesh) : Prop where
  numCoord : m.numCoord = 1
  coordType : m.coordType = .double
  sectionVtkType : m.sectionVtkType = .int
  sectionSizesType : m.sectionSizesType = .int
  connectivityType : m.connectivityType = .long
  coords : ∀ blk ∈ m.blocks, blk.coordItems ≠ 0 ∧
    (m.topology = 3 ∧ blk.coordItems % 3 = 0 ∨ m.topology = 2 ∧ blk.coordItems % 2 = 0)
  noPolygons : ∀ blk ∈ m.blocks, NoPolygons blk.sections

namespace Mesh

variable {m : Mesh} {blk : MeshBlock}

theorem Checked.vertexCoords (h : m.Checked) (hblk : blk ∈ m.blocks) :
    ∃ n, m.setVertexCoords blk = some n ∧ n ≠ 0 := by
  obtain ⟨hitems, ⟨htopology, hmod⟩ | ⟨htopology, hmod⟩⟩ := h.coords blk hblk
  · refine ⟨blk.coordItems / 3, ?_, by omega⟩
    simp [setVertexCoords, h.coordType, htopology, hmod]
  · refine ⟨blk.coordItems / 2, ?_, by omega⟩
    simp [setVertexCoords, h.coordType, htopology, hmod]

theorem Checked.fill_eq (h : m.Checked) (hblk : blk ∈ m.blocks) : ∃ n, m.fill blk =
    (insertSections blk.connectivity m.offset 0 blk.sections).map fun r => (⟨n, r.1⟩, r.2) := by
  obtain ⟨n, hn, hne⟩ := h.vertexCoords hblk
  refine ⟨n, ?_⟩
  simp [fill, setVtkConnections, hn, hne, h.numCoord, h.sectionVtkType, h.sectionSizesType,
    h.connectivityType]

/-- A grid that passes the checks is filled unless a product overflows. -/
theorem Checked.fill_cases (h : m.Checked) (hblk : blk ∈ m.blocks) :
    (Fits blk.sections ∧ ∃ g, m.fill blk = some (g, true)) ∨
      (¬ Fits blk.sections ∧ m.fill blk = none) := by
  obtain ⟨n, hfill⟩ := h.fill_eq hblk
  rw [hfill]
  obtain ⟨hfits, cells, hcells⟩ | ⟨hfits, hnone⟩ := insertSections_cases (h.noPolygons blk hblk) 0
  · exact .inl ⟨hfits, ⟨n, cells⟩, congrArg _ hcells⟩
  · exact .inr ⟨hfits, congrArg _ hnone⟩

/-- The cells of a filled grid are those of all sections. -/
theorem Checked.fill_cells (h : m.Checked) (hblk : blk ∈ m.blocks) (hs : Supported blk.sections)
    {g : Grid} (hg : m.fill blk = some (g, true)) :
    g.cells = (List.range blk.sections.length).flatMap
      (sectionCells blk.connectivity m.offset 0 blk.sections) := by
  obtain ⟨n, hfill⟩ := h.fill_eq hblk
  rw [hfill] at hg
  obtain ⟨r, hr, heq⟩ := Option.map_eq_some_iff.mp hg
  obtain ⟨rfl, -⟩ := Prod.mk.inj heq
  exact insertSections_cells hs hr

theorem block_eq_some {source : ℤ} (h : m.block source = some blk) :
    m.blocks[m.localServerSourceIndex source]? = some blk := by
  unfold block at h
  split_ifs at h
  exact h

/-- The grids of different sources are apart. -/
theorem sectionOffset_lt {i j : ℕ} (hij : i < j) (hi : m.blocks[i]? = some blk) :
    m.sectionOffset i + blk.sections.length ≤ m.sectionOffset j := by
  have hsucc : m.sectionOffset (i + 1) = m.sectionOffset i + blk.sections.length := by
    rw [sectionOffset, List.take_add_one, hi, List.map_append, List.sum_append]
    rfl
  rw [← hsucc, sectionOffset, sectionOffset]
  refine List.Sublist.sum_le_sum ?_ fun _ _ => Nat.zero_le _
  exact (List.take_sublist_take_left hij).map _

/-- The pieces of different sources are apart. -/
theorem startIndex_lt {i j : ℕ} {blk' : MeshBlock} (hij : i < j) (hi : m.blocks[i]? = some blk)
    (hj : m.blocks[j]? = some blk') : blk.startIndex + blk.sections.length ≤ blk'.startIndex := by
  obtain ⟨hlt, rfl⟩ := List.getElem?_eq_some_iff.mp hi
  obtain ⟨hlt', rfl⟩ := List.getElem?_eq_some_iff.mp hj
  exact List.pairwise_iff_getElem.mp m.apart i j hlt hlt' hij

/-- A grid belongs to one source. -/
theorem eq_of_grid {i j t u : ℕ} {blk' : MeshBlock} (hi : m.blocks[i]? = some blk)
    (hj : m.blocks[j]? = some blk') (ht : t < blk.sections.length) (hu : u < blk'.sections.length)
    (h : m.sectionOffset i + t = m.sectionOffset j + u) : i = j := by
  obtain hij | rfl | hij := lt_trichotomy i j
  · have hle := sectionOffset_lt hij hi
    omega
  · rfl
  · have hle := sectionOffset_lt hij hj
    omega

/-- A piece belongs to one source. -/
theorem eq_of_piece {i j t u : ℕ} {blk' : MeshBlock} (hi : m.blocks[i]? = some blk)
    (hj : m.blocks[j]? = some blk') (ht : t < blk.sections.length) (hu : u < blk'.sections.length)
    (h : blk.startIndex + t = blk'.startIndex + u) : i = j := by
  obtain hij | rfl | hij := lt_trichotomy i j
  · have hle := startIndex_lt hij hi hj
    omega
  · rfl
  · have hle := startIndex_lt hij hj hi
    omega

end Mesh

namespace Scene

variable {m : Mesh} {sc sc' : Scene} {source : ℤ} {blk : MeshBlock}

/-- Every grid was filled for its source, and every piece is a grid of its source. -/
structure Inv (m : Mesh) (sc : Scene) : Prop where
  grids : ∀ i blk, m.blocks[i]? = some blk → ∀ t < blk.sections.length, ∀ g,
    sc.grids (m.sectionOffset i + t) = some g → m.fill blk = some (g, true)
  pieces : ∀ i blk, m.blocks[i]? = some blk → ∀ s < blk.sections.length, ∀ k,
    sc.pieces (blk.startIndex + s) = some k →
      ∃ t < blk.sections.length, k = m.sectionOffset i + t ∧ (sc.grids k).isSome

theorem inv_init : Inv m .init := by
  constructor
  · intro i blk hblk t ht g hg
    cases hg
  · intro i blk hblk s hs k hk
    cases hk

theorem Inv.newDataSet (h : Inv m sc) : Inv m sc.newDataSet := by
  refine ⟨h.grids, ?_⟩
  intro i blk hblk s hs k hk
  cases hk

theorem resetSectionOffset_lt (sc : Scene) (source : ℤ) {sects : ℕ} (h : 0 < sects) :
    (sc.resetSectionOffset source sects).timesCalled < sects := by
  unfold resetSectionOffset
  split_ifs with hreset
  · exact h
  · omega

theorem resetSectionOffset_grids (sc : Scene) (source : ℤ) (sects : ℕ) :
    (sc.resetSectionOffset source sects).grids = sc.grids ∧
      (sc.resetSectionOffset source sects).pieces = sc.pieces := by
  unfold resetSectionOffset
  split_ifs <;> exact ⟨rfl, rfl⟩

/-- What `GetVtkGrid` does with a mesh that passes the checks: it gives one of the grids of the
source, which is new or was there. -/
theorem Inv.getVtkGrid_cases (h : Inv m sc) (hm : m.Checked) (hblk : m.block source = some blk)
    (hpos : 0 < blk.sections.length) :
    (¬ Fits blk.sections ∧ sc.getVtkGrid m source blk = none) ∨
      ∃ sc' t g, t < blk.sections.length ∧ m.fill blk = some (g, true) ∧
        sc.getVtkGrid m source blk =
          some (sc', some (m.sectionOffset (m.localServerSourceIndex source) + t)) ∧
        sc'.pieces = sc.pieces ∧ sc'.grids = Function.update sc.grids
          (m.sectionOffset (m.localServerSourceIndex source) + t) (some g) := by
  have hget := Mesh.block_eq_some hblk
  obtain ⟨hgrids, hpieces⟩ := resetSectionOffset_grids sc source blk.sections.length
  have hlt := resetSectionOffset_lt sc source hpos
  simp only [getVtkGrid, hgrids]
  generalize sc.resetSectionOffset source blk.sections.length = sc₁ at *
  cases hg : sc.grids (m.sectionOffset (m.localServerSourceIndex source) + sc₁.timesCalled) with
  | some g =>
    refine .inr ⟨_, sc₁.timesCalled, g, hlt, h.grids _ _ hget _ hlt _ hg, rfl, hpieces, ?_⟩
    rw [← hg, Function.update_eq_self]
  | none =>
    obtain ⟨hfits, g, hfill⟩ | ⟨hfits, hfill⟩ := hm.fill_cases (List.mem_of_getElem? hget)
    · rw [hfill]
      exact .inr ⟨_, sc₁.timesCalled, g, hlt, rfl, rfl, hpieces, rfl⟩
    · rw [hfill]
      exact .inl ⟨hfits, rfl⟩

/-- What a step keeps. -/
structure Grows (sc sc' : Scene) : Prop where
  grids : ∀ k, (sc.grids k).isSome → (sc'.grids k).isSome
  pieces : ∀ p k, sc.pieces p = some k → sc'.pieces p = some k

theorem Grows.refl : Grows sc sc := ⟨fun _ h => h, fun _ _ h => h⟩

theorem Grows.trans {sc'' : Scene} (h : Grows sc sc') (h' : Grows sc' sc'') : Grows sc sc'' :=
  ⟨fun k hk => h'.grids k (h.grids k hk), fun p k hk => h'.pieces p k (h.pieces p k hk)⟩

theorem Inv.fits_of_piece (h : Inv m sc) (hm : m.Checked) (hblk : m.block source = some blk) {s k : ℕ}
    (hs : s < blk.sections.length) (hk : sc.pieces (blk.startIndex + s) = some k) :
    Fits blk.sections := by
  have hget := Mesh.block_eq_some hblk
  obtain ⟨t, ht, rfl, hsome⟩ := h.pieces _ _ hget s hs k hk
  obtain ⟨g, hg⟩ := Option.isSome_iff_exists.mp hsome
  obtain ⟨hfits, -⟩ | ⟨-, hfill⟩ := hm.fill_cases (List.mem_of_getElem? hget)
  · exact hfits
  · rw [h.grids _ _ hget t ht g hg] at hfill
    cases hfill

/-- A filled grid of the source becomes the piece of a section. -/
theorem Inv.put {i s t : ℕ} {g : Grid} (h : Inv m sc) (hi : m.blocks[i]? = some blk)
    (hs : s < blk.sections.length) (ht : t < blk.sections.length)
    (hfill : m.fill blk = some (g, true))
    (hgrids : sc'.grids = Function.update sc.grids (m.sectionOffset i + t) (some g))
    (hpieces : sc'.pieces =
      Function.update sc.pieces (blk.startIndex + s) (some (m.sectionOffset i + t))) :
    Inv m sc' := by
  have hgrows : ∀ k, (sc.grids k).isSome → (sc'.grids k).isSome := by
    intro k hk
    rw [hgrids, Function.update_apply]
    split_ifs
    · rfl
    · exact hk
  constructor
  · intro j blk' hj u hu g' hg'
    rw [hgrids, Function.update_apply] at hg'
    split_ifs at hg' with heq
    · obtain rfl := Mesh.eq_of_grid hj hi hu ht heq
      cases hg'
      cases hi.symm.trans hj
      exact hfill
    · exact h.grids j blk' hj u hu g' hg'
  · intro j blk' hj u hu k hk
    rw [hpieces, Function.update_apply] at hk
    split_ifs at hk with heq
    · obtain rfl := Mesh.eq_of_piece hj hi hu hs heq
      cases hi.symm.trans hj
      cases hk
      exact ⟨t, ht, rfl, by rw [hgrids, Function.update_self]; rfl⟩
    · obtain ⟨t', ht', rfl, hsome⟩ := h.pieces j blk' hj u hu k hk
      exact ⟨t', ht', rfl, hgrows _ hsome⟩

/-- The piece of a section is installed unless a product overflows. -/
theorem Inv.install_cases (h : Inv m sc) (hm : m.Checked) (hblk : m.block source = some blk)
    {s : ℕ} (hs : s < blk.sections.length) :
    (¬ Fits blk.sections ∧ sc.install m source blk (blk.startIndex + s) = none) ∨
      (Fits blk.sections ∧ ∃ sc', sc.install m source blk (blk.startIndex + s) = some sc' ∧
        Inv m sc' ∧ Grows sc sc' ∧ (sc'.pieces (blk.startIndex + s)).isSome) := by
  have hget := Mesh.block_eq_some hblk
  unfold install
  cases hp : sc.pieces (blk.startIndex + s) with
  | some k => exact .inr ⟨h.fits_of_piece hm hblk hs hp, sc, rfl, h, .refl, by rw [hp]; rfl⟩
  | none =>
    obtain ⟨hfits, hnone⟩ | ⟨sc₁, t, g, ht, hfill, hsome, hpieces, hgrids⟩ :=
      h.getVtkGrid_cases hm hblk (by omega)
    · rw [hnone]
      exact .inl ⟨hfits, rfl⟩
    · have hfits : Fits blk.sections := by
        obtain ⟨hfits, -⟩ | ⟨-, hnone⟩ := hm.fill_cases (List.mem_of_getElem? hget)
        · exact hfits
        · rw [hfill] at hnone
          cases hnone
      rw [hsome]
      refine .inr ⟨hfits, _, rfl, ?_, ⟨?_, ?_⟩, ?_⟩
      · exact h.put hget hs ht hfill hgrids (congrArg (fun p => Function.update p _ _) hpieces)
      · intro k hk
        dsimp only
        rw [hgrids, Function.update_apply]
        split_ifs
        · rfl
        · exact hk
      · intro p k hk
        dsimp only
        rw [hpieces, Function.update_apply]
        split_ifs with heq
        · rw [heq, hp] at hk
          cases hk
        · exact hk
      · dsimp only
        rw [Function.update_self]
        rfl

theorem Inv.of_install (h : Inv m sc) (hm : m.Checked) (hblk : m.block source = some blk) {s : ℕ}
    (hs : s < blk.sections.length)
    (hinstall : sc.install m source blk (blk.startIndex + s) = some sc') :
    Fits blk.sections ∧ Inv m sc' ∧ Grows sc sc' := by
  obtain ⟨-, hnone⟩ | ⟨hfits, sc₁, hsome, hinv, hgrows, -⟩ := h.install_cases hm hblk hs
  · rw [hnone] at hinstall
    cases hinstall
  · rw [hsome] at hinstall
    cases hinstall
    exact ⟨hfits, hinv, hgrows⟩

end Scene

end Damaris.Paraview
