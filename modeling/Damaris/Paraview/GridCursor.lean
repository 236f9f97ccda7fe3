import Damaris.Paraview.MeshPieces

/-!
# The grids that an unstructured mesh keeps

A server keeps one grid for every section of its sources in a vector, those of a source one after
the other. Which section `GetVtkGrid` is called for is not said: the mesh remembers the source of
the last call and counts the calls since. The vector is laid out once, for the sources that
`SetSourceRange` is first called with.
-/
namespace Damaris.Paraview

/-! ## The mesh -/

/-- The members of `UnstructuredMesh` that the grids are found with; `G` is what a pointer to a grid
is. -/
structure UnstructuredMesh (G : Type*) where
  vtkUsmGrid : List (Option G)
  sctnsNumberof : List ℕ
  sctnOffsets : List ℕ
  lastSource : ℤ
  timesCalled : ℕ
  sourceRangeLow : ℤ
  deriving DecidableEq

/-- A grid that `GetVtkGrid` returned, with its slot in the vector, and whether it was created. -/
structure Served (G : Type*) where
  source : ℤ
  slot : ℕ
  created : Bool
  grid : Option G
  deriving DecidableEq

/-- `v[i]` of an `int`: `none` is an access outside of the vector. -/
def entry {α : Type*} (v : List α) (i : ℤ) : Option α := if 0 ≤ i then v[i.toNat]? else none

namespace UnstructuredMesh

variable {G : Type*}

/-- `UnstructuredMesh::New`, which leaves the lowest source as it is. -/
def new (low : ℤ) : UnstructuredMesh G := ⟨[], [], [], -1, 0, low⟩

/-- The loop of `SetSourceRange`; `none` is a source without a block of section sizes. -/
def sourceLoop (numberOfItems : ℤ → Option ℕ) :
    List ℤ → UnstructuredMesh G → ℕ → Option (UnstructuredMesh G)
  | [], m, total => some { m with vtkUsmGrid := List.replicate total none }
  | source :: sources, m, total =>
    (numberOfItems source).bind fun n =>
      sourceLoop numberOfItems sources
        { m with
          sctnOffsets := m.sctnOffsets ++ [total]
          sctnsNumberof := m.sctnsNumberof ++ [n] }
        (total + n)

/-- `SetSourceRange`, with the number of items in each source's block of section sizes. -/
def setSourceRange (m : UnstructuredMesh G) (low high : ℤ) (numberOfItems : ℤ → Option ℕ) :
    Option (UnstructuredMesh G) :=
  if m.vtkUsmGrid.length = 0 then
    sourceLoop numberOfItems ((List.range (high - low + 1).toNat).map fun i : ℕ => low + i)
      { m with sourceRangeLow := low } 0
  else some m

def localServerSourceIndex (m : UnstructuredMesh G) (source : ℤ) : ℤ := source - m.sourceRangeLow

/-- `vect_server_sctn_offsets_` and the calls for the source. -/
def offset (m : UnstructuredMesh G) (source : ℤ) : Option ℕ :=
  (entry m.sctnOffsets (m.localServerSourceIndex source)).map (· + m.timesCalled)

def isNull (m : UnstructuredMesh G) (source : ℤ) : Option (UnstructuredMesh G × Bool) :=
  (entry m.sctnsNumberof (m.localServerSourceIndex source)).bind fun sects =>
    let m :=
      if sects ≤ m.timesCalled ∨ source ≠ m.lastSource then
        { m with timesCalled := 0, lastSource := source }
      else m
    (m.offset source).bind fun offset => m.vtkUsmGrid[offset]?.map fun grid => (m, grid.isNone)

/-- `CreateVtkGrid`, with the slot of the grid. -/
def createVtkGrid (m : UnstructuredMesh G) (source : ℤ) (grid : G) :
    Option (UnstructuredMesh G × ℕ) :=
  (m.offset source).bind fun offset =>
    if offset < m.vtkUsmGrid.length then
      some ({ m with
        timesCalled := m.timesCalled + 1
        vtkUsmGrid := m.vtkUsmGrid.set offset (some grid) }, offset)
    else none

/-- `ReturnVTKMeshPtr`, with the slot of the grid. -/
def returnVTKMeshPtr (m : UnstructuredMesh G) (source : ℤ) :
    Option (UnstructuredMesh G × ℕ × Option G) :=
  (m.offset source).bind fun offset =>
    let m' := { m with timesCalled := m.timesCalled + 1 }
    if offset ≤ m.vtkUsmGrid.length then
      m.vtkUsmGrid[offset]?.map fun grid => (m', offset, grid)
    else some (m', offset, none)

/-- `GetVtkGrid`, with the grid that VTK would make, and whether the mesh's variables fill it. -/
def getVtkGrid (m : UnstructuredMesh G) (source : ℤ) (grid : G) (filled : Bool) :
    Option (UnstructuredMesh G × Served G) :=
  match m.isNull source with
  | none => none
  | some (m, true) => (m.createVtkGrid source grid).map fun r =>
    (r.1, ⟨source, r.2, true, if filled then some grid else none⟩)
  | some (m, false) => (m.returnVTKMeshPtr source).map fun r =>
    (r.1, ⟨source, r.2.1, false, r.2.2⟩)

/-- Calls that all succeed, each with its source and the grid that VTK would make. -/
def serve : UnstructuredMesh G → List (ℤ × G) → Option (UnstructuredMesh G × List (Served G))
  | m, [] => some (m, [])
  | m, (source, grid) :: calls =>
    (m.getVtkGrid source grid true).bind fun r =>
      (serve r.1 calls).map fun out => (out.1, r.2 :: out.2)

end UnstructuredMesh

/-! ## Passes -/

/-- The sources of a server, from `low` on, with the number of sections of each. -/
structure SourceRange where
  low : ℤ
  counts : List ℕ
  pos : ∀ n ∈ counts, 1 ≤ n

namespace SourceRange

variable (k : SourceRange)

def high : ℤ := k.low + k.counts.length - 1

def sources : List ℤ := (List.range k.counts.length).map fun i : ℕ => k.low + i

def count (source : ℤ) : ℕ := k.counts.getD (source - k.low).toNat 0

/-- The sections of the sources before. -/
def offset (source : ℤ) : ℕ := (k.counts.take (source - k.low).toNat).sum

/-- A pass visits every source, and calls once for each of its sections. -/
structure Pass (G : Type*) where
  order : List ℤ
  perm : order.Perm k.sources
  grid : ℤ → ℕ → G

namespace Pass

variable {k} {G : Type*} (p : k.Pass G)

def calls : List (ℤ × G) :=
  p.order.flatMap fun source => (List.range (k.count source)).map fun s => (source, p.grid source s)

/-- The call `s` for a source is served from the slot `s` after its offset. -/
def served (created : Bool) (grid : ℤ → ℕ → G) : List (Served G) :=
  p.order.flatMap fun source => (List.range (k.count source)).map fun s =>
    ⟨source, k.offset source + s, created, some (grid source s)⟩

end Pass

/-- Pass after pass, each after a call of `SetSourceRange`. -/
def servePasses {G : Type*} : UnstructuredMesh G → List (k.Pass G) →
    Option (UnstructuredMesh G × List (List (Served G)))
  | m, [] => some (m, [])
  | m, p :: ps =>
    ((m.setSourceRange k.low k.high fun source => entry k.counts (source - k.low)).bind fun m =>
      m.serve p.calls).bind fun r =>
        (servePasses r.1 ps).map fun out => (out.1, r.2 :: out.2)

/-! ## Slots -/

variable {k} {source : ℤ}

theorem mem_sources : source ∈ k.sources ↔
    k.low ≤ source ∧ (source - k.low).toNat < k.counts.length := by
  rw [sources, List.mem_map]
  constructor
  · rintro ⟨i, hi, rfl⟩
    rw [List.mem_range] at hi
    omega
  · rintro ⟨hlow, hlt⟩
    exact ⟨_, List.mem_range.mpr hlt, by omega⟩

theorem nodup_sources (k : SourceRange) : k.sources.Nodup := by
  refine List.Nodup.map (fun i j h => ?_) List.nodup_range
  omega

/-- The slots of all sources, in the order of the sources, are those of the vector. -/
theorem flatMap_slots (k : SourceRange) :
    k.sources.flatMap (fun source => (List.range (k.count source)).map fun s =>
      k.offset source + s) = List.range k.counts.sum := by
  have h := flatten_slices 1 k.counts k.counts.length
  rw [List.take_length, one_mul] at h
  rw [← h, sources, List.flatMap_map, List.flatMap_def]
  congr 1
  refine List.map_congr_left fun i _ => ?_
  have hindex : (k.low + (i : ℤ) - k.low).toNat = i := by omega
  rw [sliceAt, List.range'_eq_map_range, mul_one, one_mul, count, offset, hindex]

theorem perm_slots {order : List ℤ} (h : order.Perm k.sources) :
    (order.flatMap fun source => (List.range (k.count source)).map fun s =>
      k.offset source + s).Perm (List.range k.counts.sum) := by
  rw [← flatMap_slots]
  exact h.flatMap_right _

theorem slot_lt (h : source ∈ k.sources) {s : ℕ} (hs : s < k.count source) :
    k.offset source + s < k.counts.sum := by
  rw [← List.mem_range, ← flatMap_slots]
  exact List.mem_flatMap.mpr ⟨source, h, List.mem_map_of_mem (List.mem_range.mpr hs)⟩

/-- The slots of a source end where those of the next one begin. -/
theorem offset_le {other : ℤ} (h : k.low ≤ source) (hlt : source < other) :
    k.offset source + k.count source ≤ k.offset other := by
  rw [offset, offset, count, ← sum_take_succ]
  refine List.Sublist.sum_le_sum (List.take_sublist_take_left ?_) fun _ _ => Nat.zero_le _
  omega

/-- A slot of one source is no slot of another. -/
theorem slot_ne {other : ℤ} (h : source ∈ k.sources) (hother : other ∈ k.sources)
    (hne : other ≠ source) {t : ℕ} (ht : t < k.count other) :
    ¬ (k.offset source ≤ k.offset other + t ∧
      k.offset other + t < k.offset source + k.count source) := by
  obtain hlt | hlt := lt_or_gt_of_ne hne
  · have hle := offset_le (mem_sources.mp hother).1 hlt
    omega
  · have hle := offset_le (mem_sources.mp h).1 hlt
    omega

end SourceRange

/-! ## One call -/

namespace UnstructuredMesh

variable {G : Type*} {k : SourceRange} {m : UnstructuredMesh G} {source : ℤ}

/-- What `SetSourceRange` has laid out. -/
structure LaidOut (k : SourceRange) (m : UnstructuredMesh G) : Prop where
  grids : m.vtkUsmGrid.length = k.counts.sum
  numberof : m.sctnsNumberof = k.counts
  offsets : m.sctnOffsets = (List.range k.counts.length).map fun i => (k.counts.take i).sum
  low : m.sourceRangeLow = k.low

/-- The section of the source that the next call is for. -/
def nextSection (k : SourceRange) (m : UnstructuredMesh G) (source : ℤ) : ℕ :=
  if k.count source ≤ m.timesCalled ∨ source ≠ m.lastSource then 0 else m.timesCalled

/-- The mesh after a call that was served from the slot. -/
def afterCall (m : UnstructuredMesh G) (source : ℤ) (s slot : ℕ) (grid : G) :
    UnstructuredMesh G :=
  { m with
    vtkUsmGrid := m.vtkUsmGrid.set slot (some grid)
    lastSource := source
    timesCalled := s + 1 }

theorem LaidOut.afterCall (h : m.LaidOut k) (source : ℤ) (s slot : ℕ) (grid : G) :
    (m.afterCall source s slot grid).LaidOut k :=
  ⟨by rw [UnstructuredMesh.afterCall, List.length_set, h.grids], h.numberof, h.offsets, h.low⟩

theorem LaidOut.entry_numberof (h : m.LaidOut k) (hsource : source ∈ k.sources) :
    entry m.sctnsNumberof (m.localServerSourceIndex source) = some (k.count source) := by
  obtain ⟨hlow, hlt⟩ := SourceRange.mem_sources.mp hsource
  rw [entry, localServerSourceIndex, h.low, h.numberof, if_pos (by omega), SourceRange.count,
    List.getD_eq_getElem?_getD, List.getElem?_eq_getElem hlt, Option.getD_some]

theorem LaidOut.offset_eq (h : m.LaidOut k) (hsource : source ∈ k.sources) :
    m.offset source = some (k.offset source + m.timesCalled) := by
  obtain ⟨hlow, hlt⟩ := SourceRange.mem_sources.mp hsource
  rw [UnstructuredMesh.offset, entry, localServerSourceIndex, h.low, h.offsets, if_pos (by omega),
    List.getElem?_map, List.getElem?_range hlt]
  rfl

theorem nextSection_afterCall {s : ℕ} (hlt : s + 1 < k.count source) (slot : ℕ) (grid : G) :
    (m.afterCall source s slot grid).nextSection k source = s + 1 := by
  rw [nextSection, UnstructuredMesh.afterCall, if_neg]
  rw [not_or, not_not, not_le]
  exact ⟨hlt, rfl⟩

theorem getElem?_afterCall_of_ne {slot i : ℕ} (hne : i ≠ slot) (s : ℕ) (grid : G) :
    (m.afterCall source s slot grid).vtkUsmGrid[i]? = m.vtkUsmGrid[i]? := by
  rw [UnstructuredMesh.afterCall, List.getElem?_set_ne hne.symm]

theorem nextSection_lt (hpos : 0 < k.count source) : m.nextSection k source < k.count source := by
  rw [nextSection]
  split_ifs with hcond
  · exact hpos
  · rw [not_or, not_le] at hcond
    exact hcond.1

/-- The mesh once `IsNull` has put the cursor on a section. -/
def placed (m : UnstructuredMesh G) (source : ℤ) (s : ℕ) : UnstructuredMesh G :=
  { m with timesCalled := s, lastSource := source }

theorem LaidOut.placed (h : m.LaidOut k) (source : ℤ) (s : ℕ) : (m.placed source s).LaidOut k :=
  ⟨h.grids, h.numberof, h.offsets, h.low⟩

theorem LaidOut.isNull_eq (h : m.LaidOut k) (hsource : source ∈ k.sources) {s : ℕ}
    (hnext : m.nextSection k source = s) {old : Option G}
    (hold : m.vtkUsmGrid[k.offset source + s]? = some old) :
    m.isNull source = some (m.placed source s, old.isNone) := by
  have hreset : (if k.count source ≤ m.timesCalled ∨ source ≠ m.lastSource then
      { m with timesCalled := 0, lastSource := source } else m) = m.placed source s := by
    rw [nextSection] at hnext
    split_ifs at hnext ⊢ with hcond
    · subst hnext
      rfl
    · rw [not_or, not_not] at hcond
      rw [UnstructuredMesh.placed, ← hnext, hcond.2]
  rw [isNull, h.entry_numberof hsource, Option.bind_some, hreset]
  dsimp only
  rw [(h.placed source s).offset_eq hsource, Option.bind_some]
  dsimp only [UnstructuredMesh.placed]
  rw [hold]
  rfl

/-- A call is served from the slot of the next section, and creates the grid if there is none. -/
theorem LaidOut.getVtkGrid_eq (h : m.LaidOut k) (hsource : source ∈ k.sources) {s : ℕ}
    (hnext : m.nextSection k source = s) {old : Option G}
    (hold : m.vtkUsmGrid[k.offset source + s]? = some old) (grid : G) (filled : Bool) :
    m.getVtkGrid source grid filled =
      some (m.afterCall source s (k.offset source + s) (old.getD grid),
        ⟨source, k.offset source + s, old.isNone, if filled then some (old.getD grid) else old⟩) := by
  have hplaced : (m.placed source s).vtkUsmGrid[k.offset source + s]? = some old := hold
  have hlt := (List.getElem?_eq_some_iff.mp hplaced).1
  have hoffset : (m.placed source s).offset source = some (k.offset source + s) :=
    (h.placed source s).offset_eq hsource
  rw [getVtkGrid, h.isNull_eq hsource hnext hold]
  cases old with
  | none =>
    dsimp only [Option.isNone_none]
    rw [createVtkGrid, hoffset, Option.bind_some, if_pos hlt]
    rfl
  | some g =>
    dsimp only [Option.isNone_some]
    rw [returnVTKMeshPtr, hoffset, Option.bind_some]
    dsimp only
    rw [if_pos hlt.le, hplaced]
    -- the slot is written with the grid that it has
    have hset : m.vtkUsmGrid.set (k.offset source + s) (some g) = m.vtkUsmGrid := by
      obtain ⟨hslot, hget⟩ := List.getElem?_eq_some_iff.mp hold
      rw [← hget, List.set_getElem_self]
    simp only [Option.map_some, Option.getD_some, UnstructuredMesh.afterCall, hset, ite_self]
    rfl

/-! ## The calls for one source -/

theorem serve_append (m : UnstructuredMesh G) (xs ys : List (ℤ × G)) :
    m.serve (xs ++ ys) = (m.serve xs).bind fun r =>
      (r.1.serve ys).map fun out => (out.1, r.2 ++ out.2) := by
  induction xs generalizing m with
  | nil => simp [serve]
  | cons x xs ih =>
    obtain ⟨source, grid⟩ := x
    rw [List.cons_append, serve, serve]
    cases m.getVtkGrid source grid true with
    | none => rfl
    | some r =>
      rw [Option.bind_some, Option.bind_some, ih]
      cases r.1.serve xs with
      | none => rfl
      | some out =>
        simp only [Option.bind_some, Option.map_some, Option.map_map]
        rfl

/-- The next call for any source is for its first section. -/
def AtRest (k : SourceRange) (m : UnstructuredMesh G) : Prop :=
  ∀ source, m.nextSection k source = 0

theorem atRest_of_count (hlast : m.lastSource = source) (htimes : m.timesCalled = k.count source) :
    m.AtRest k := by
  intro other
  rw [nextSection, if_pos]
  by_cases hother : other = source
  · exact .inl (by rw [hother, htimes])
  · exact .inr (hlast ▸ hother)

/-- The calls for the sections of a source from `s` on. What each slot held is `old`. -/
theorem LaidOut.serve_sections (hsource : source ∈ k.sources) (grid : ℕ → G) (old : ℕ → Option G)
    {n s : ℕ} (hcount : s + n = k.count source) {m : UnstructuredMesh G} (h : m.LaidOut k)
    (hnext : n ≠ 0 → m.nextSection k source = s)
    (hold : ∀ t, s ≤ t → t < k.count source → m.vtkUsmGrid[k.offset source + t]? = some (old t)) :
    ∃ m', m.serve ((List.range' s n).map fun t => (source, grid t)) =
        some (m', (List.range' s n).map fun t =>
          ⟨source, k.offset source + t, (old t).isNone, some ((old t).getD (grid t))⟩) ∧
      m'.LaidOut k ∧ (n ≠ 0 → m'.AtRest k) ∧
      (∀ t, s ≤ t → t < k.count source →
        m'.vtkUsmGrid[k.offset source + t]? = some (some ((old t).getD (grid t)))) ∧
      ∀ i, ¬ (k.offset source + s ≤ i ∧ i < k.offset source + k.count source) →
        m'.vtkUsmGrid[i]? = m.vtkUsmGrid[i]? := by
  induction n generalizing m s with
  | zero =>
    exact ⟨m, rfl, h, fun hne => absurd rfl hne, fun t hle hlt => by omega, fun i _ => rfl⟩
  | succ n ih =>
    have hs : s < k.count source := by omega
    have hcall := h.getVtkGrid_eq hsource (hnext (Nat.succ_ne_zero n)) (hold s le_rfl hs) (grid s)
      true
    have hslot : k.offset source + s < m.vtkUsmGrid.length :=
      (List.getElem?_eq_some_iff.mp (hold s le_rfl hs)).1
    obtain ⟨m', hserve, hlaid, hrest, hgrids, hsame⟩ := ih (show s + 1 + n = k.count source by omega)
      (h.afterCall source s _ _) (fun hn => nextSection_afterCall (by omega) _ _) fun t hle hlt => by
        have hne : k.offset source + t ≠ k.offset source + s := by omega
        rw [getElem?_afterCall_of_ne hne]
        exact hold t (by omega) hlt
    refine ⟨m', ?_, hlaid, fun _ => ?_, fun t hle hlt => ?_, fun i hi => ?_⟩
    · rw [List.range'_succ, List.map_cons, List.map_cons, serve, hcall, Option.bind_some, hserve]
      rfl
    · by_cases hn : n = 0
      · subst hn
        cases hserve
        exact atRest_of_count rfl hcount
      · exact hrest hn
    · by_cases ht : t = s
      · rw [ht, hsame _ (by omega), UnstructuredMesh.afterCall, List.getElem?_set_self hslot]
      · exact hgrids t (by omega) hlt
    · rw [hsame i (by omega), getElem?_afterCall_of_ne (by omega)]

/-- The calls for all sections of a source. -/
theorem LaidOut.serve_source (h : m.LaidOut k) (hrest : m.AtRest k) (hsource : source ∈ k.sources)
    (grid : ℕ → G) (old : ℕ → Option G)
    (hold : ∀ t < k.count source, m.vtkUsmGrid[k.offset source + t]? = some (old t)) :
    ∃ m', m.serve ((List.range (k.count source)).map fun t => (source, grid t)) =
        some (m', (List.range (k.count source)).map fun t =>
          ⟨source, k.offset source + t, (old t).isNone, some ((old t).getD (grid t))⟩) ∧
      m'.LaidOut k ∧ m'.AtRest k ∧
      (∀ t < k.count source,
        m'.vtkUsmGrid[k.offset source + t]? = some (some ((old t).getD (grid t)))) ∧
      ∀ other ∈ k.sources, other ≠ source → ∀ t < k.count other,
        m'.vtkUsmGrid[k.offset other + t]? = m.vtkUsmGrid[k.offset other + t]? := by
  have hpos : k.count source ≠ 0 := by
    obtain ⟨-, hlt⟩ := SourceRange.mem_sources.mp hsource
    have hone := k.pos _ (List.getElem_mem hlt)
    rw [SourceRange.count, getD_of_lt hlt]
    omega
  obtain ⟨m', hserve, hlaid, hrest', hgrids, hsame⟩ := LaidOut.serve_sections hsource grid old
    (Nat.zero_add _) h (fun _ => hrest source) fun t _ => hold t
  rw [← List.range_eq_range'] at hserve
  refine ⟨m', hserve, hlaid, hrest' hpos, fun t => hgrids t (Nat.zero_le t),
    fun other hother hne t ht => ?_⟩
  exact hsame _ (SourceRange.slot_ne hsource hother hne ht)

/-! ## Passes -/

/-- A pass over sources that are different. What each slot held is `old`. -/
theorem LaidOut.serve_order (grid : ℤ → ℕ → G) (old : ℤ → ℕ → Option G) {order : List ℤ}
    (hnodup : order.Nodup) (hsub : ∀ source ∈ order, source ∈ k.sources) {m : UnstructuredMesh G}
    (h : m.LaidOut k) (hrest : m.AtRest k)
    (hold : ∀ source ∈ order, ∀ t < k.count source,
      m.vtkUsmGrid[k.offset source + t]? = some (old source t)) :
    ∃ m', m.serve (order.flatMap fun source =>
          (List.range (k.count source)).map fun t => (source, grid source t)) =
        some (m', order.flatMap fun source => (List.range (k.count source)).map fun t =>
          ⟨source, k.offset source + t, (old source t).isNone,
            some ((old source t).getD (grid source t))⟩) ∧
      m'.LaidOut k ∧ m'.AtRest k ∧
      (∀ source ∈ order, ∀ t < k.count source, m'.vtkUsmGrid[k.offset source + t]? =
        some (some ((old source t).getD (grid source t)))) ∧
      ∀ other ∈ k.sources, other ∉ order → ∀ t < k.count other,
        m'.vtkUsmGrid[k.offset other + t]? = m.vtkUsmGrid[k.offset other + t]? := by
  induction order generalizing m with
  | nil => exact ⟨m, rfl, h, hrest, List.forall_mem_nil _, fun _ _ _ _ _ => rfl⟩
  | cons source order ih =>
    obtain ⟨hnot, hnodup⟩ := List.nodup_cons.mp hnodup
    obtain ⟨hsource, hsub⟩ := List.forall_mem_cons.mp hsub
    obtain ⟨m₁, hserve₁, hlaid₁, hrest₁, hgrids₁, hsame₁⟩ := h.serve_source hrest hsource
      (grid source) (old source) (hold source List.mem_cons_self)
    obtain ⟨m', hserve, hlaid, hrest', hgrids, hsame⟩ := ih hnodup hsub hlaid₁ hrest₁ (by
      intro other hother t ht
      have hne : other ≠ source := fun heq => hnot (heq ▸ hother)
      rw [hsame₁ other (hsub other hother) hne t ht]
      exact hold other (List.mem_cons_of_mem _ hother) t ht)
    refine ⟨m', ?_, hlaid, hrest', ?_, ?_⟩
    · rw [List.flatMap_cons, serve_append, hserve₁, Option.bind_some, hserve, List.flatMap_cons]
      rfl
    · refine List.forall_mem_cons.mpr ⟨fun t ht => ?_, hgrids⟩
      rw [hsame source hsource hnot t ht]
      exact hgrids₁ t ht
    · intro other hother hnotMem t ht
      rw [List.mem_cons, not_or] at hnotMem
      obtain ⟨hne, hnotMem⟩ := hnotMem
      rw [hsame other hother hnotMem t ht, hsame₁ other hother hne t ht]

/-- The loop of `SetSourceRange` over the sources that are left. -/
theorem sourceLoop_eq {numberOfItems : ℤ → Option ℕ} {sources : List ℤ} {counts : List ℕ}
    (h : sources.map numberOfItems = counts.map some) (m : UnstructuredMesh G) (total : ℕ) :
    sourceLoop numberOfItems sources m total = some { m with
      vtkUsmGrid := List.replicate (total + counts.sum) none
      sctnOffsets := m.sctnOffsets ++
        (List.range counts.length).map fun i => total + (counts.take i).sum
      sctnsNumberof := m.sctnsNumberof ++ counts } := by
  induction sources generalizing m total counts with
  | nil =>
    obtain rfl := List.map_eq_nil_iff.mp h.symm
    simp [sourceLoop]
  | cons source sources ih =>
    cases counts with
    | nil => cases h
    | cons n counts =>
      obtain ⟨hsource, hsources⟩ := List.cons.inj h
      rw [sourceLoop, hsource, Option.bind_some, ih hsources]
      simp [List.range_succ_eq_map, Function.comp_def, Nat.add_assoc]

theorem map_entry_sources (k : SourceRange) :
    ((List.range (k.high - k.low + 1).toNat).map fun i : ℕ => k.low + (i : ℤ)).map
      (fun source => entry k.counts (source - k.low)) = k.counts.map some := by
  have hlength : (k.high - k.low + 1).toNat = k.counts.length := by
    rw [SourceRange.high]
    omega
  rw [hlength, List.map_map]
  refine List.ext_getElem (by simp) fun i hi hi' => ?_
  rw [List.length_map] at hi'
  have hindex : (k.low + (i : ℤ) - k.low).toNat = i := by omega
  simp only [List.getElem_map, List.getElem_range, Function.comp_apply]
  rw [entry, if_pos (by omega), hindex, List.getElem?_eq_getElem hi']

theorem setSourceRange_new (k : SourceRange) (low : ℤ) :
    ∃ m, (new low : UnstructuredMesh G).setSourceRange k.low k.high
        (fun source => entry k.counts (source - k.low)) = some m ∧
      m.LaidOut k ∧ m.AtRest k ∧ m.vtkUsmGrid = List.replicate k.counts.sum none := by
  have hempty : (new low : UnstructuredMesh G).vtkUsmGrid.length = 0 := rfl
  rw [setSourceRange, if_pos hempty, sourceLoop_eq (map_entry_sources k)]
  refine ⟨_, rfl, ⟨by simp, rfl, by simp [new], rfl⟩, fun source => ?_, by simp⟩
  rw [nextSection]
  split_ifs <;> rfl

/-- Later calls of `SetSourceRange` change nothing. -/
theorem LaidOut.setSourceRange_eq (h : m.LaidOut k) :
    m.setSourceRange k.low k.high (fun source => entry k.counts (source - k.low)) = some m := by
  rw [setSourceRange]
  split_ifs with hempty
  · have hcounts : k.counts = [] := by
      rw [h.grids, List.sum_eq_zero_iff] at hempty
      refine List.eq_nil_iff_forall_not_mem.mpr fun n hn => ?_
      have hpos := k.pos n hn
      have hzero := hempty n hn
      omega
    have hgrids : m.vtkUsmGrid = [] := List.eq_nil_of_length_eq_zero hempty
    rw [sourceLoop_eq (map_entry_sources k), hcounts, ← h.low]
    simp only [List.sum_nil, List.length_nil, List.range_zero, List.map_nil, List.append_nil,
      Nat.add_zero, List.replicate_zero, ← hgrids]
  · rfl

end UnstructuredMesh

namespace SourceRange

variable {k : SourceRange} {G : Type*} {m : UnstructuredMesh G}

/-- A pass over a mesh where each slot holds `old`. -/
theorem Pass.serve_eq (p : k.Pass G) (h : m.LaidOut k) (hrest : m.AtRest k)
    (old : ℤ → ℕ → Option G) (hold : ∀ source ∈ k.sources, ∀ t < k.count source,
      m.vtkUsmGrid[k.offset source + t]? = some (old source t)) :
    ∃ m', m.serve p.calls = some (m', p.order.flatMap fun source =>
        (List.range (k.count source)).map fun t => ⟨source, k.offset source + t,
          (old source t).isNone, some ((old source t).getD (p.grid source t))⟩) ∧
      m'.LaidOut k ∧ m'.AtRest k ∧
      ∀ source ∈ k.sources, ∀ t < k.count source, m'.vtkUsmGrid[k.offset source + t]? =
        some (some ((old source t).getD (p.grid source t))) := by
  obtain ⟨m', hserve, hlaid, hrest', hgrids, -⟩ := UnstructuredMesh.LaidOut.serve_order p.grid old
    (p.perm.nodup_iff.mpr k.nodup_sources) (fun source hs => p.perm.mem_iff.mp hs) h hrest
    fun source hs => hold source (p.perm.mem_iff.mp hs)
  exact ⟨m', hserve, hlaid, hrest', fun source hs => hgrids source (p.perm.mem_iff.mpr hs)⟩

/-- Passes over a mesh where every slot holds a grid. -/
theorem servePasses_of_full (grid : ℤ → ℕ → G) (ps : List (k.Pass G)) {m : UnstructuredMesh G}
    (h : m.LaidOut k) (hrest : m.AtRest k) (hfull : ∀ source ∈ k.sources, ∀ t < k.count source,
      m.vtkUsmGrid[k.offset source + t]? = some (some (grid source t))) :
    ∃ m', k.servePasses m ps = some (m', ps.map fun p => p.served false grid) ∧
      m'.vtkUsmGrid.length = k.counts.sum := by
  induction ps generalizing m with
  | nil => exact ⟨m, rfl, h.grids⟩
  | cons p ps ih =>
    obtain ⟨m₁, hserve, hlaid, hrest₁, hfull₁⟩ :=
      p.serve_eq h hrest (fun source t => some (grid source t)) hfull
    obtain ⟨m', hps, hlength⟩ := ih hlaid hrest₁ hfull₁
    refine ⟨m', ?_, hlength⟩
    rw [servePasses, h.setSourceRange_eq, Option.bind_some, hserve, Option.bind_some, hps]
    rfl

theorem Pass.slots_served (p : k.Pass G) (created : Bool) (grid : ℤ → ℕ → G) :
    (p.served created grid).map Served.slot =
      p.order.flatMap fun source => (List.range (k.count source)).map fun s =>
        k.offset source + s := by
  rw [Pass.served, List.map_flatMap]
  simp only [List.map_map, Function.comp_def]

/-- The first pass creates the grids, one in each slot of the vector, and every pass after it returns
them. The call `s` for a source is served from the slot `s` after the offset of the source. -/
theorem servePasses_eq (k : SourceRange) (low : ℤ) (first : k.Pass G) (rest : List (k.Pass G)) :
    ∃ m, k.servePasses (.new low) (first :: rest) = some (m,
        first.served true first.grid :: rest.map fun p => p.served false first.grid) ∧
      ∀ p ∈ first :: rest, ((p.served true first.grid).map Served.slot).Perm
        (List.range m.vtkUsmGrid.length) := by
  obtain ⟨m₀, hset, hlaid, hrest, hnone⟩ := UnstructuredMesh.setSourceRange_new (G := G) k low
  obtain ⟨m₁, hserve, hlaid₁, hrest₁, hfull⟩ := first.serve_eq hlaid hrest (fun _ _ => none) (by
    intro source hs t ht
    rw [hnone, List.getElem?_replicate, if_pos (slot_lt hs ht)])
  obtain ⟨m, hps, hlength⟩ := servePasses_of_full first.grid rest hlaid₁ hrest₁ hfull
  refine ⟨m, ?_, fun p _ => ?_⟩
  · rw [servePasses, hset, Option.bind_some, hserve, Option.bind_some, hps]
    rfl
  · rw [p.slots_served, hlength]
    exact perm_slots p.perm

end SourceRange
/-! ## The scene -/

/-- The sources of a mesh whose sources all have sections. -/
def Mesh.sourceRange (m : Mesh) (h : ∀ blk ∈ m.blocks, blk.sections ≠ []) : SourceRange where
  low := m.low
  counts := m.blocks.map fun blk => blk.sections.length
  pos n hn := by
    obtain ⟨blk, hblk, rfl⟩ := List.mem_map.mp hn
    exact List.length_pos_iff.mpr (h blk hblk)

namespace UnstructuredMesh

variable {m : Mesh} {h : ∀ blk ∈ m.blocks, blk.sections ≠ []} {u : UnstructuredMesh Grid}
  {sc : Scene} {source : ℤ} {blk : MeshBlock}

/-- What a scene has of the mesh: the same last call, and in every slot the same grid. -/
structure Shows (u : UnstructuredMesh Grid) (sc : Scene) : Prop where
  lastSource : u.lastSource = sc.lastSource
  timesCalled : u.timesCalled = sc.timesCalled
  grids : ∀ i < u.vtkUsmGrid.length, u.vtkUsmGrid[i]? = some (sc.grids i)

theorem mem_sourceRange (hblk : m.block source = some blk) : source ∈ (m.sourceRange h).sources ∧
    (m.sourceRange h).count source = blk.sections.length ∧
    (m.sourceRange h).offset source = m.sectionOffset (m.localServerSourceIndex source) := by
  have hget := Mesh.block_eq_some hblk
  obtain ⟨hlt, -⟩ := List.getElem?_eq_some_iff.mp hget
  have hlow : m.low ≤ source := by
    unfold Mesh.block at hblk
    split_ifs at hblk with hlow
    exact hlow
  refine ⟨SourceRange.mem_sources.mpr ⟨hlow, ?_⟩, ?_, ?_⟩
  · rw [Mesh.sourceRange, List.length_map]
    exact hlt
  · rw [SourceRange.count, Mesh.sourceRange, List.getD_eq_getElem?_getD, List.getElem?_map]
    exact congrArg (fun b : Option MeshBlock => (b.map _).getD 0) hget
  · rw [SourceRange.offset, Mesh.sourceRange, ← List.map_take]
    rfl

theorem Shows.resetSectionOffset (hshows : u.Shows sc) (k : SourceRange) (source : ℤ) :
    sc.resetSectionOffset source (k.count source) =
      { sc with timesCalled := u.nextSection k source, lastSource := source } := by
  rw [Scene.resetSectionOffset, nextSection, hshows.timesCalled, hshows.lastSource]
  split_ifs with hcond
  · rfl
  · rw [not_or, not_not] at hcond
    rw [hcond.2]

/-- After the call the slot has the same grid in both. -/
theorem Shows.afterCall (hshows : u.Shows sc) {s slot : ℕ} {g : Grid} {sc' : Scene}
    (hlast : sc'.lastSource = source) (htimes : sc'.timesCalled = s + 1)
    (hgrids : sc'.grids = Function.update sc.grids slot (some g)) :
    (u.afterCall source s slot g).Shows sc' := by
  refine ⟨hlast.symm, htimes.symm, fun i hi => ?_⟩
  rw [UnstructuredMesh.afterCall, List.length_set] at hi
  rw [UnstructuredMesh.afterCall, hgrids, List.getElem?_set, Function.update_apply]
  by_cases heq : slot = i
  · subst heq
    rw [if_pos rfl, if_pos hi, if_pos rfl]
  · rw [if_neg heq, if_neg (Ne.symm heq), hshows.grids i hi]

/-- `GetVtkGrid` on the vector does what it does in the scene, which has the number of a slot for a
grid. -/
theorem Shows.getVtkGrid (hlaid : u.LaidOut (m.sourceRange h)) (hshows : u.Shows sc)
    (hblk : m.block source = some blk) {g : Grid} {filled : Bool}
    (hfill : m.fill blk = some (g, filled)) :
    ∃ u' sc' served number, u.getVtkGrid source g filled = some (u', served) ∧
      sc.getVtkGrid m source blk = some (sc', number) ∧ u'.Shows sc' ∧
      served.grid = number.bind sc'.grids ∧ ∀ slot ∈ number, slot = served.slot := by
  obtain ⟨hsource, hcount, hoffset⟩ := mem_sourceRange (h := h) hblk
  have hpos : 0 < blk.sections.length :=
    List.length_pos_iff.mpr (h blk (List.mem_of_getElem? (Mesh.block_eq_some hblk)))
  obtain ⟨s, hnext⟩ : ∃ s, u.nextSection (m.sourceRange h) source = s := ⟨_, rfl⟩
  have hlt := SourceRange.slot_lt hsource (hnext ▸ nextSection_lt (hcount ▸ hpos))
  have hold := hshows.grids _ (hlaid.grids ▸ hlt)
  have hcall := hlaid.getVtkGrid_eq hsource hnext hold g filled
  have hreset := hshows.resetSectionOffset (m.sourceRange h) source
  rw [hcount, hnext] at hreset
  rw [hoffset] at hold hcall
  obtain ⟨slot, hslot⟩ : ∃ slot, m.sectionOffset (m.localServerSourceIndex source) + s = slot :=
    ⟨_, rfl⟩
  rw [hslot] at hcall
  cases hg : sc.grids slot with
  | some old =>
    rw [hg] at hcall
    refine ⟨_, { sc with timesCalled := s + 1, lastSource := source }, _, some slot, hcall, ?_, ?_,
      ?_, ?_⟩
    · rw [Scene.getVtkGrid, hreset]
      dsimp only
      rw [hslot, hg]
    · refine hshows.afterCall rfl rfl ?_
      rw [Option.getD_some, ← hg, Function.update_eq_self]
    · simp [hg]
    · intro other hother
      cases hother
      rfl
  | none =>
    rw [hg] at hcall
    refine ⟨_, ⟨Function.update sc.grids slot (some g), source, s + 1, sc.pieces⟩, _,
      if filled then some slot else none, hcall, ?_, hshows.afterCall rfl rfl rfl, ?_, ?_⟩
    · rw [Scene.getVtkGrid, hreset]
      dsimp only
      rw [hslot, hg, hfill]
      rfl
    · cases filled <;> simp
    · intro other hother
      split_ifs at hother
      · cases hother
        rfl
      · cases hother

end UnstructuredMesh
end Damaris.Paraview
