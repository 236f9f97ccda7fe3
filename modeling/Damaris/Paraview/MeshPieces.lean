import Damaris.Paraview.MeshSections

/-!
# The pieces of a block

What `AddBlocksToUnstructuredMesh` gives to the sections of one block: which elements of the
buffer are attached to each, and which cells the grids have that become the pieces. The offset of
a slice counts one for each element of the sections before, whatever the number of components, and
the grid of every section is filled with the cells of all of them.
-/
namespace Damaris.Paraview
open Data BoxLayout

/-! ## Slices -/

section Slices

variable {c : ℕ} {sizes : List ℕ}

/-- So many elements for each of the section's, from an offset that counts `step` for each element
of the sections before. -/
def sliceAt (step c : ℕ) (sizes : List ℕ) (s : ℕ) : List ℕ :=
  List.range' (step * (sizes.take s).sum) (sizes.getD s 0 * c)

theorem sum_take_succ (sizes : List ℕ) (s : ℕ) :
    (sizes.take (s + 1)).sum = (sizes.take s).sum + sizes.getD s 0 := by
  rw [List.take_add_one, List.sum_append, List.getD_eq_getElem?_getD]
  cases sizes[s]? <;> simp

/-- Slices that count the components are disjoint, in order, and cover the elements before. -/
theorem flatten_slices (c : ℕ) (sizes : List ℕ) (n : ℕ) :
    ((List.range n).map (sliceAt c c sizes)).flatten = List.range (c * (sizes.take n).sum) := by
  induction n with
  | zero => simp
  | succ n ih =>
    have hsum : c * (sizes.take (n + 1)).sum = c * (sizes.take n).sum + sizes.getD n 0 * c := by
      rw [sum_take_succ]
      ring
    rw [List.range_succ, List.map_append, List.flatten_append, ih, hsum, List.range_add]
    simp [sliceAt, List.range'_eq_map_range]

theorem getD_of_lt {s : ℕ} (h : s < sizes.length) : sizes.getD s 0 = sizes[s] := by
  rw [List.getD_eq_getElem?_getD, List.getElem?_eq_getElem h, Option.getD_some]

theorem sliceAt_eq_iff (hc : 1 ≤ c) (s : ℕ) : sliceAt 1 c sizes s = sliceAt c c sizes s ↔
    c = 1 ∨ sizes.getD s 0 = 0 ∨ (sizes.take s).sum = 0 := by
  have hzero : sizes.getD s 0 * c = 0 ↔ sizes.getD s 0 = 0 := by
    rw [Nat.mul_eq_zero]
    omega
  have hoffset : 1 * (sizes.take s).sum = c * (sizes.take s).sum ↔
      c = 1 ∨ (sizes.take s).sum = 0 := by
    rw [mul_eq_mul_right_iff]
    omega
  rw [sliceAt, sliceAt, List.range'_inj, hzero, hoffset]
  tauto

theorem slices_eq_iff (sizes : List ℕ) (hc : 1 ≤ c) :
    (∀ s < sizes.length, sliceAt 1 c sizes s = sliceAt c c sizes s) ↔
      c = 1 ∨ sizes.Pairwise fun a b => a = 0 ∨ b = 0 := by
  simp only [sliceAt_eq_iff hc]
  rw [List.pairwise_iff_getElem]
  constructor
  · intro h
    by_cases hone : c = 1
    · exact .inl hone
    · refine .inr fun i j hi hj hij => ?_
      obtain hone' | hsize | hsum := h j hj
      · exact absurd hone' hone
      · exact .inr (getD_of_lt hj ▸ hsize)
      · have hmem : sizes[i] ∈ sizes.take j :=
          List.mem_take_iff_getElem.mpr ⟨i, by omega, rfl⟩
        exact .inl (List.sum_eq_zero_iff.mp hsum _ hmem)
  · rintro (hone | hpairs) s hs
    · exact .inl hone
    · right
      rw [getD_of_lt hs]
      by_cases hsize : sizes[s] = 0
      · exact .inl hsize
      · refine .inr (List.sum_eq_zero_iff.mpr fun x hx => ?_)
        obtain ⟨i, hi, rfl⟩ := List.mem_take_iff_getElem.mp hx
        exact (hpairs i s (by omega) hs (by omega)).resolve_right hsize

end Slices

variable {D : Type*}

/-! ## The sections of a block -/

/-- The variables that `InstantiateBufferAndAddToVtkGrid` knows what to do with. -/
def FieldVariable.Accepted (v : FieldVariable) : Prop := hasCase v.type ∧ v.centering ≠ .undefined

theorem FieldVariable.Accepted.instantiate {v : FieldVariable} (h : v.Accepted) (piece : ℕ)
    (grid : Option ℕ) (offset : ℕ) (size components : ℤ) :
    v.instantiateBufferAndAddToVtkGrid piece grid offset size components =
      grid.map fun g => some ⟨piece, g, offset, size, components⟩ := by
  obtain ⟨hcase, hcentering⟩ := h
  rw [instantiateBufferAndAddToVtkGrid, if_pos hcase]
  split
  · exact absurd ‹_› hcentering
  · rfl

theorem FieldVariable.instantiate_of_not {v : FieldVariable} (h : ¬ v.Accepted) (piece : ℕ)
    (grid : Option ℕ) (offset : ℕ) (size components : ℤ) :
    v.instantiateBufferAndAddToVtkGrid piece grid offset size components = some none := by
  unfold instantiateBufferAndAddToVtkGrid
  split_ifs with hcase
  · have hcentering : v.centering = .undefined := not_not.mp fun hne => h ⟨hcase, hne⟩
    rw [hcentering]
  · rfl

section AddSections

variable {m : Mesh} {v : FieldVariable} {source : ℤ} {blk : MeshBlock} {c : ℤ} {sc : Scene}

/-- The products of sizes and components are `int`. -/
def ProductsFit (c : ℤ) (secs : List MeshSection) : Prop :=
  ∀ sec ∈ secs, toInt (sec.size * c) = sec.size * c

instance (secs : List MeshSection) : Decidable (ProductsFit c secs) :=
  inferInstanceAs (Decidable (∀ sec ∈ secs, toInt (sec.size * c) = sec.size * c))

/-- What the loop does with one section. -/
inductive Adds (m : Mesh) (v : FieldVariable) (source : ℤ) (blk : MeshBlock) (c : ℤ)
    (k o : ℕ) (sec : MeshSection) (rest : List MeshSection) (sc : Scene) : Outcome → Prop
  | refused {sc₁ : Scene} (hinstall : sc.install m source blk (blk.startIndex + k) = some sc₁)
      (hv : ¬ v.Accepted) : Adds m v source blk c k o sec rest sc ⟨sc₁, [], false⟩
  | added {sc₁ : Scene} {g : ℕ} {out : Outcome}
      (hinstall : sc.install m source blk (blk.startIndex + k) = some sc₁) (hv : v.Accepted)
      (hproduct : toInt (sec.size * c) = sec.size * c)
      (hpiece : sc₁.pieces (blk.startIndex + k) = some g)
      (hrest : addSections m v source blk c (k + 1) (o + sec.size) rest sc₁ = some out) :
      Adds m v source blk c k o sec rest sc
        { out with attached := ⟨blk.startIndex + k, g, o, sec.size * c, c⟩ :: out.attached }

theorem addSections_cons {k o : ℕ} {sec : MeshSection} {rest : List MeshSection} {out : Outcome}
    (h : addSections m v source blk c k o (sec :: rest) sc = some out) :
    Adds m v source blk c k o sec rest sc out := by
  rw [addSections] at h
  obtain ⟨sc₁, hinstall, h⟩ := Option.bind_eq_some_iff.mp h
  split_ifs at h with hproduct
  by_cases hv : v.Accepted
  · rw [hv.instantiate] at h
    cases hpiece : sc₁.pieces (blk.startIndex + k) with
    | none =>
      rw [hpiece] at h
      cases h
    | some g =>
      rw [hpiece] at h
      obtain ⟨out', hrest, rfl⟩ := Option.map_eq_some_iff.mp h
      exact .added hinstall hv (not_not.mp hproduct) hpiece hrest
  · rw [FieldVariable.instantiate_of_not hv] at h
    cases h
    exact .refused hinstall hv

theorem addSections_keeps (hm : m.Checked) (hblk : m.block source = some blk)
    {rest : List MeshSection} {k o : ℕ} (hlen : k + rest.length ≤ blk.sections.length)
    (hinv : sc.Inv m) {out : Outcome} (h : addSections m v source blk c k o rest sc = some out) :
    out.scene.Inv m ∧ sc.Grows out.scene := by
  induction rest generalizing k o sc out with
  | nil =>
    cases h
    exact ⟨hinv, .refl⟩
  | cons sec rest ih =>
    rw [List.length_cons] at hlen
    cases addSections_cons h with
    | refused hinstall hv =>
      obtain ⟨-, hinv₁, hgrows⟩ := hinv.of_install hm hblk (by omega) hinstall
      exact ⟨hinv₁, hgrows⟩
    | added hinstall hv hproduct hpiece hrest =>
      obtain ⟨-, hinv₁, hgrows⟩ := hinv.of_install hm hblk (by omega) hinstall
      obtain ⟨hinv', hgrows'⟩ := ih (by omega) hinv₁ hrest
      exact ⟨hinv', hgrows.trans hgrows'⟩

theorem Reached.inv {D : Type*} (hm : m.Checked) (h : Reached m D sc) : sc.Inv m := by
  induction h with
  | init => exact Scene.inv_init
  | newDataSet _ ih => exact ih.newDataSet
  | addBlock _ v b hout ih =>
    unfold Paraview.addBlock at hout
    cases hblk : m.block b.source with
    | none =>
      rw [hblk] at hout
      cases hout
    | some blk =>
      rw [hblk] at hout
      exact (addSections_keeps hm hblk (by omega) ih hout).1

/-- A block is taken if nothing overflows and the variable is accepted, and only then. -/
theorem addSections_ok_iff (hm : m.Checked) (hblk : m.block source = some blk)
    {rest : List MeshSection} {k o : ℕ} (hlen : k + rest.length ≤ blk.sections.length)
    (hinv : sc.Inv m) :
    (∃ out, addSections m v source blk c k o rest sc = some out ∧ out.ok) ↔
      rest = [] ∨ Fits blk.sections ∧ v.Accepted ∧ ProductsFit c rest := by
  induction rest generalizing k o sc with
  | nil => exact ⟨fun _ => .inl rfl, fun _ => ⟨_, rfl, rfl⟩⟩
  | cons sec rest ih =>
    rw [List.length_cons] at hlen
    constructor
    · rintro ⟨out, hout, hok⟩
      cases addSections_cons hout with
      | refused hinstall hv => cases hok
      | added hinstall hv hproduct hpiece hrest =>
        obtain ⟨hfits, hinv₁, -⟩ := hinv.of_install hm hblk (by omega) hinstall
        have hproducts : ProductsFit c rest := by
          obtain rfl | ⟨-, -, hproducts⟩ := (ih (by omega) hinv₁).mp ⟨_, hrest, hok⟩
          · exact List.forall_mem_nil _
          · exact hproducts
        exact .inr ⟨hfits, hv, List.forall_mem_cons.mpr ⟨hproduct, hproducts⟩⟩
    · rintro (hnil | ⟨hfits, hv, hproducts⟩)
      · cases hnil
      · obtain ⟨hproduct, hproducts⟩ := List.forall_mem_cons.mp hproducts
        obtain ⟨hnot, -⟩ | ⟨-, sc₁, hinstall, hinv₁, -, hsome⟩ :=
          hinv.install_cases hm hblk (show k < blk.sections.length by omega)
        · exact absurd hfits hnot
        · obtain ⟨g, hg⟩ := Option.isSome_iff_exists.mp hsome
          obtain ⟨out, hrest, hok⟩ := (ih (k := k + 1) (o := o + sec.size) (by omega) hinv₁).mpr
            (.inr ⟨hfits, hv, hproducts⟩)
          refine ⟨{ out with
            attached := ⟨blk.startIndex + k, g, o, sec.size * c, c⟩ :: out.attached }, ?_, hok⟩
          rw [addSections, hinstall, Option.bind_some, if_neg (not_not.mpr hproduct),
            hv.instantiate, hg]
          dsimp only [Option.map_some]
          rw [hrest]
          rfl

/-- What is attached for the section `s` of those that are left. -/
def attachedAt (blk : MeshBlock) (sc : Scene) (c : ℤ) (k o : ℕ) (rest : List MeshSection) (s : ℕ) :
    Attached where
  piece := blk.startIndex + (k + s)
  grid := (sc.pieces (blk.startIndex + (k + s))).getD 0
  offset := o + ((rest.map MeshSection.size).take s).sum
  size := (rest.map MeshSection.size).getD s 0 * c
  components := c

theorem attachedAt_succ {k o : ℕ} {sec : MeshSection} {rest : List MeshSection} (s : ℕ) :
    attachedAt blk sc c k o (sec :: rest) (s + 1) =
      attachedAt blk sc c (k + 1) (o + sec.size) rest s := by
  simp [attachedAt, Nat.add_assoc, Nat.add_comm 1]

theorem addSections_attached (hm : m.Checked) (hblk : m.block source = some blk)
    {rest : List MeshSection} {k o : ℕ} (hlen : k + rest.length ≤ blk.sections.length)
    (hinv : sc.Inv m) {out : Outcome} (h : addSections m v source blk c k o rest sc = some out)
    (hok : out.ok) :
    out.attached = (List.range rest.length).map (attachedAt blk out.scene c k o rest) ∧
      ∀ s < rest.length, (out.scene.pieces (blk.startIndex + (k + s))).isSome := by
  induction rest generalizing k o sc out with
  | nil =>
    cases h
    exact ⟨rfl, fun s hs => by cases hs⟩
  | cons sec rest ih =>
    rw [List.length_cons] at hlen
    cases addSections_cons h with
    | refused hinstall hv => cases hok
    | @added sc₁ g out' hinstall hv hproduct hpiece hrest =>
      obtain ⟨-, hinv₁, -⟩ := hinv.of_install hm hblk (by omega) hinstall
      obtain ⟨-, hgrows⟩ := addSections_keeps hm hblk (by omega) hinv₁ hrest
      obtain ⟨hattached, hpieces⟩ := ih (by omega) hinv₁ hrest hok
      have hg := hgrows.pieces _ _ hpiece
      rw [List.length_cons, List.range_succ_eq_map, List.map_cons, List.map_map]
      constructor
      · have hfirst : attachedAt blk out'.scene c k o (sec :: rest) 0 =
            ⟨blk.startIndex + k, g, o, sec.size * c, c⟩ := by
          simp [attachedAt, hg]
        rw [hfirst, hattached]
        exact congrArg _ (List.map_congr_left fun s _ => (attachedAt_succ s).symm)
      · intro s hs
        cases s with
        | zero =>
          rw [Nat.add_zero, hg]
          rfl
        | succ s =>
          have hpiece' := hpieces s (by omega)
          rwa [Nat.add_right_comm, Nat.add_assoc k] at hpiece'

end AddSections

/-! ## What a block is given -/

section Blocks

variable {m : Mesh} {v : FieldVariable} {blk : MeshBlock} {c : ℕ} {sc : Scene} {b : Block D}

/-- Section after section gets the elements of the buffer that belong to it, and these are all. -/
structure Slices (blk : MeshBlock) (c : ℕ) (attached : List Attached) : Prop where
  each : attached.map (fun a => (a.piece, a.elements)) =
    (List.range blk.sections.length).map fun s =>
      (blk.startIndex + s, sliceAt c c (blk.sections.map MeshSection.size) s)
  cover : (attached.map Attached.elements).flatten =
    List.range (c * (blk.sections.map MeshSection.size).sum)

/-- The piece of every section holds its cells and no other, and is given a tuple for each. -/
def PiecesMatch (m : Mesh) (blk : MeshBlock) (out : Outcome) : Prop :=
  ∀ s < blk.sections.length, ∃ k g, out.scene.pieces (blk.startIndex + s) = some k ∧
    out.scene.grids k = some g ∧
    g.cells = sectionCells blk.connectivity m.offset 0 blk.sections s ∧
    ∃ a ∈ out.attached, a.piece = blk.startIndex + s ∧ a.grid = k ∧
      a.size = g.cells.length * a.components

theorem addBlock_eq (hblk : m.block b.source = some blk) : addBlock m v b sc =
    addSections m v b.source blk (v.getVectorSizeFromBlock b 0) 0 0 blk.sections sc := by
  rw [addBlock, hblk]

theorem attachedAt_elements (blk : MeshBlock) (sc : Scene) (c : ℕ) (secs : List MeshSection)
    (s : ℕ) : (attachedAt blk sc c 0 0 secs s).elements =
      sliceAt 1 c (secs.map MeshSection.size) s := by
  simp only [Attached.elements, attachedAt, sliceAt, Nat.zero_add, Nat.one_mul]
  rw [← Nat.cast_mul, Int.toNat_natCast]

theorem slices_iff {attached : List Attached} (hpos : 1 ≤ c)
    (h : attached = (List.range blk.sections.length).map (attachedAt blk sc c 0 0 blk.sections)) :
    Slices blk c attached ↔
      c = 1 ∨ blk.sections.Pairwise fun a a' => a.size = 0 ∨ a'.size = 0 := by
  have hslices := slices_eq_iff (blk.sections.map MeshSection.size) hpos
  rw [List.length_map, List.pairwise_map] at hslices
  rw [← hslices, h]
  constructor
  · rintro ⟨heach, -⟩ s hs
    rw [List.map_map, List.map_inj_left] at heach
    have hpair := heach s (List.mem_range.mpr hs)
    rw [← attachedAt_elements blk sc]
    exact (Prod.mk.inj hpair).2
  · intro heq
    have helements : ∀ s ∈ List.range blk.sections.length,
        (Attached.elements ∘ attachedAt blk sc c 0 0 blk.sections) s =
          sliceAt c c (blk.sections.map MeshSection.size) s := by
      intro s hs
      rw [Function.comp_apply, attachedAt_elements]
      exact heq s (List.mem_range.mp hs)
    constructor
    · rw [List.map_map]
      refine List.map_congr_left fun s hs => Prod.ext ?_ (helements s hs)
      exact congrArg (blk.startIndex + ·) (Nat.zero_add s)
    · rw [List.map_map, List.map_congr_left helements, flatten_slices,
        List.take_of_length_le (List.length_map _).le]

/-- A hexahedron and a tetrahedron. -/
def twoSections : MeshBlock := ⟨24, [⟨.hexahedron, 1⟩, ⟨.tetra, 1⟩], BitVec.ofNat 64, 0⟩

def oneSource : Mesh := ⟨0, 1, 3, .double, .int, .int, .long, 0, [twoSections], by simp⟩

theorem checked_oneSource : oneSource.Checked where
  numCoord := rfl
  coordType := rfl
  sectionVtkType := rfl
  sectionSizesType := rfl
  connectivityType := rfl
  coords := by simp [oneSource, twoSections]
  noPolygons := by simp [oneSource, twoSections, NoPolygons]

theorem fits_twoSections : Fits twoSections.sections := by decide

/-- Vectors, or scalars, on the cells. -/
def onCells (isVector : Bool) : FieldVariable := ⟨.double, .zonal, isVector⟩

theorem accepted_onCells (isVector : Bool) : (onCells isVector).Accepted := ⟨rfl, fun h => by cases h⟩

def threeByTwo : Block Unit := ⟨0, 0, 0, [0, 0], [2, 1], [3, 2], [], some (), true⟩

theorem Scene.Inv.piece_cells {source : ℤ} (h : sc.Inv m) (hm : m.Checked)
    (hblk : m.block source = some blk) (hs : Supported blk.sections) {s : ℕ}
    (hlt : s < blk.sections.length) (hsome : (sc.pieces (blk.startIndex + s)).isSome) :
    ∃ k g, sc.pieces (blk.startIndex + s) = some k ∧ sc.grids k = some g ∧
      g.cells = (List.range blk.sections.length).flatMap
        (sectionCells blk.connectivity m.offset 0 blk.sections) := by
  have hget := Mesh.block_eq_some hblk
  obtain ⟨k, hk⟩ := Option.isSome_iff_exists.mp hsome
  obtain ⟨t, ht, rfl, hgrid⟩ := h.pieces _ _ hget s hlt k hk
  obtain ⟨g, hg⟩ := Option.isSome_iff_exists.mp hgrid
  exact ⟨_, g, hk, hg, hm.fill_cells (List.mem_of_getElem? hget) hs (h.grids _ _ hget t ht g hg)⟩

theorem piecesMatch_iff {source c : ℤ} {out : Outcome} (hm : m.Checked)
    (hblk : m.block source = some blk) (hs : Supported blk.sections) (hinv : out.scene.Inv m)
    (hattached : out.attached =
      (List.range blk.sections.length).map (attachedAt blk out.scene c 0 0 blk.sections))
    (hpieces : ∀ s < blk.sections.length, (out.scene.pieces (blk.startIndex + s)).isSome) :
    PiecesMatch m blk out ↔
      blk.sections.length ≤ 1 ∨ ∀ sec ∈ blk.sections, sec.size = 0 := by
  rw [← flatMap_sectionCells_eq_iff blk.connectivity m.offset blk.sections 0]
  constructor
  · intro h s hlt
    obtain ⟨k, g, hk, hg, hcells⟩ := hinv.piece_cells hm hblk hs hlt (hpieces s hlt)
    obtain ⟨k', g', hk', hg', hcells', -⟩ := h s hlt
    cases hk.symm.trans hk'
    cases hg.symm.trans hg'
    exact hcells.symm.trans hcells'
  · intro h s hlt
    obtain ⟨k, g, hk, hg, hcells⟩ := hinv.piece_cells hm hblk hs hlt (hpieces s hlt)
    have hcells' := hcells.trans (h s hlt)
    refine ⟨k, g, hk, hg, hcells', attachedAt blk out.scene c 0 0 blk.sections s, ?_, ?_, ?_, ?_⟩
    · rw [hattached]
      exact List.mem_map_of_mem (List.mem_range.mpr hlt)
    · exact congrArg (blk.startIndex + ·) (Nat.zero_add s)
    · simp [attachedAt, hk]
    · rw [hcells', length_sectionCells hlt]
      simp [attachedAt, hlt]

/-- A single hexahedron. -/
def oneSection : Mesh :=
  ⟨0, 1, 3, .double, .int, .int, .long, 0, [⟨24, [⟨.hexahedron, 1⟩], BitVec.ofNat 64, 0⟩], by simp⟩

end Blocks

end Damaris.Paraview
