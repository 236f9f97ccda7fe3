import Damaris.Data.Ranges
import Damaris.Paraview.MeshPieces

/-!
# The pieces of the clients

What `AddBlocksToVtkGrid` does with a mesh that is not unstructured, where every client writes one
block. Each server sets the number of pieces from the range of the sources of the blocks that it
stores, and a block becomes the piece with the number of its source among all clients.
-/
namespace Damaris
open Data Paraview

namespace Paraview

variable {D : Type*}

/-! ## One call -/

/-- The argument of `SetNumberOfPieces`: `none` when the ends of the range are never set, or the
number is no `int`. -/
def numberOfPieces (serversNo : ℕ) (v : Variable D) : Option ℕ :=
  match v.getSourceRange with
  | none => none
  | some (source_range_low, source_range_high) =>
    let numberOfClientsOnServer := source_range_high - source_range_low + 1
    if toInt (numberOfClientsOnServer * serversNo) = numberOfClientsOnServer * serversNo then
      some (numberOfClientsOnServer * serversNo % 2 ^ 32).toNat
    else none

/-- The `unsigned int` of a source. -/
def pieceId (source : ℤ) : ℕ := (source % 2 ^ 32).toNat

/-- The pieces of the data set, each with the number of its grid, the sources with the piece ids
that were used for them, and what is returned: `none` is the use of a null grid. -/
structure PieceOutcome where
  pieces : ℕ → Option ℕ
  used : List (ℤ × ℕ)
  attached : List Attached
  retval : Option Bool

section Loop

variable (f : FieldVariable) (getVtkGrid : Block D → Option ℕ)

/-- The loop over the blocks of an iteration. The grid of a block that has no piece is what the
mesh returns for it. -/
def addPieces (retval : Bool) : List (Block D) → (ℕ → Option ℕ) → PieceOutcome
  | [], pieces => ⟨pieces, [], [], some retval⟩
  | b :: bs, pieces =>
    let id := pieceId b.source
    let pieces := match pieces id with
      | some _ => pieces
      | none => Function.update pieces id (getVtkGrid b)
    match f.instantiateBufferAndAddToVtkGrid id (pieces id) 0 b.numberOfItems
        (f.getVectorSizeFromBlock b 0) with
    | none => ⟨pieces, [(b.source, id)], [], none⟩
    | some none => ⟨pieces, [(b.source, id)], [], some false⟩
    | some (some a) =>
      let out := addPieces true bs pieces
      { out with used := (b.source, id) :: out.used, attached := a :: out.attached }

/-- `AddBlocksToVtkGrid`, from the pieces that there are once their number is set. -/
def addBlocksToVtkGrid (serversNo : ℕ) (v : Variable D) (pieces : ℕ → Option ℕ) (iteration : ℤ) :
    Option ℕ × PieceOutcome :=
  (numberOfPieces serversNo v,
    addPieces f getVtkGrid false (v.blocksByIteration (v.normalise iteration)) pieces)

instance : Decidable f.Accepted :=
  inferInstanceAs (Decidable (FieldVariable.hasCase f.type ∧ f.centering ≠ .undefined))

/-- The blocks that the loop comes to when it finds a grid for each: it ends at the first that is
not attached. -/
def visited (grid : Block D → Option ℕ) : List (Block D) → List (Block D)
  | [] => []
  | b :: bs =>
    if f.Accepted ∧ (grid b).isSome then b :: visited grid bs
    else [b]

variable {f} {getVtkGrid}

theorem visited_subset {grid : Block D → Option ℕ} {bs : List (Block D)} :
    visited f grid bs ⊆ bs := by
  induction bs with
  | nil => exact List.Subset.refl _
  | cons b bs ih =>
    rw [visited]
    split_ifs
    · exact List.cons_subset_cons b ih
    · exact List.cons_subset.mpr ⟨List.mem_cons_self, List.nil_subset _⟩

theorem visited_congr {grid grid' : Block D → Option ℕ} {bs : List (Block D)}
    (h : ∀ b ∈ bs, grid b = grid' b) : visited f grid bs = visited f grid' bs := by
  induction bs with
  | nil => rfl
  | cons b bs ih =>
    obtain ⟨hb, hbs⟩ := List.forall_mem_cons.mp h
    rw [visited, visited, hb, ih hbs]

/-- With one block a client, the loop uses the number of the source for every block that it comes
to. -/
theorem used_addPieces {bs : List (Block D)} (retval : Bool) (pieces : ℕ → Option ℕ)
    (hone : bs.Pairwise fun b c => pieceId b.source ≠ pieceId c.source) :
    (addPieces f getVtkGrid retval bs pieces).used =
      (visited f (fun b => (pieces (pieceId b.source)).or (getVtkGrid b)) bs).map
        fun b => (b.source, pieceId b.source) := by
  induction bs generalizing retval pieces with
  | nil => rfl
  | cons b bs ih =>
    obtain ⟨hb, hbs⟩ := List.pairwise_cons.mp hone
    -- the pieces of the blocks after this one are as they were
    have hset : ∃ pieces', (match pieces (pieceId b.source) with
        | some _ => pieces
        | none => Function.update pieces (pieceId b.source) (getVtkGrid b)) = pieces' ∧
        pieces' (pieceId b.source) = (pieces (pieceId b.source)).or (getVtkGrid b) ∧
        ∀ c ∈ bs, pieces' (pieceId c.source) = pieces (pieceId c.source) := by
      refine ⟨_, rfl, ?_⟩
      cases hpiece : pieces (pieceId b.source) with
      | some g => exact ⟨hpiece, fun c _ => rfl⟩
      | none =>
        refine ⟨Function.update_self _ _ _, fun c hc => ?_⟩
        exact Function.update_of_ne (hb c hc).symm _ _
    obtain ⟨pieces', heq, hgrid, hrest⟩ := hset
    have hcongr := visited_congr (f := f) fun c hc => congrArg (·.or (getVtkGrid c)) (hrest c hc)
    simp only [addPieces, visited, heq]
    by_cases hf : f.Accepted
    · rw [hf.instantiate, hgrid]
      obtain hg | ⟨g, hg⟩ := Option.eq_none_or_eq_some
        ((pieces (pieceId b.source)).or (getVtkGrid b))
      · simp [hg]
      · simp [hg, hf, ih true pieces' hbs, hcongr]
    · rw [FieldVariable.instantiate_of_not hf, if_neg fun h => hf h.1]
      rfl

end Loop

theorem pieceId_of_lt {source : ℤ} (hpos : 0 ≤ source) (hlt : source < 2 ^ 31) :
    (pieceId source : ℤ) = source := by
  rw [pieceId]
  omega

/-! ## All servers -/

variable (D) in
/-- The servers of a run and what each holds of a variable: blocks of its own clients, whose ranks
follow one another, one block a client in every iteration. -/
structure Deployment where
  servers : ℕ
  perServer : ℕ
  /-- The numbers of clients are `int`. -/
  fits : servers * perServer < 2 ^ 31
  field : FieldVariable
  vars : Fin servers → Variable D
  sources : ∀ s, ∀ b ∈ (vars s).blocks,
    (s : ℤ) * perServer ≤ b.source ∧ b.source < (s : ℤ) * perServer + perServer
  one : ∀ s, ∀ b ∈ (vars s).blocks, ∀ c ∈ (vars s).blocks,
    b.iteration = c.iteration → b.source = c.source → b = c
  getVtkGrid : Fin servers → Block D → Option ℕ
  pieces : Fin servers → ℕ → Option ℕ

namespace Deployment

variable (d : Deployment D) (iteration : ℤ)

/-- The call of one server. -/
def call (s : Fin d.servers) : Option ℕ × PieceOutcome :=
  addBlocksToVtkGrid d.field (d.getVtkGrid s) d.servers (d.vars s) (d.pieces s) iteration

/-- The pieces are numbered through: all servers set the same number, the ids are below it, and
no two clients have the same. -/
structure Numbered : Prop where
  same : ∃ n, ∀ s, (d.call iteration s).1 = some n
  below : ∀ s n, (d.call iteration s).1 = some n → ∀ u ∈ (d.call iteration s).2.used, u.2 < n
  distinct : ∀ s t, ∀ u ∈ (d.call iteration s).2.used, ∀ v ∈ (d.call iteration t).2.used,
    u.1 ≠ v.1 → u.2 ≠ v.2

/-- The blocks of the iteration that the loop of a server comes to. -/
def visited (s : Fin d.servers) : List (Block D) :=
  Paraview.visited d.field
    (fun b => (d.pieces s (pieceId b.source)).or (d.getVtkGrid s b))
    ((d.vars s).blocksByIteration ((d.vars s).normalise iteration))

/-- From the lowest to the biggest stored source there are `w` ranks. -/
def Spans (s : Fin d.servers) (w : ℤ) : Prop :=
  ∃ low high, IsLeast ((d.vars s).values Block.source) low ∧
    IsGreatest ((d.vars s).values Block.source) high ∧ high - low + 1 = w

variable {d} {iteration} {s : Fin d.servers} {b : Block D} {w : ℤ}

theorem source_lt (hb : b ∈ (d.vars s).blocks) : b.source < d.perServer * d.servers := by
  have hle : ((s : ℕ) + 1) * d.perServer ≤ d.servers * d.perServer :=
    Nat.mul_le_mul_right _ s.isLt
  rw [Nat.succ_mul] at hle
  rw [mul_comm]
  exact lt_of_lt_of_le (d.sources s b hb).2 (by exact_mod_cast hle)

theorem source_bounds (hb : b ∈ (d.vars s).blocks) : 0 ≤ b.source ∧ b.source < 2 ^ 31 := by
  have hfits : (d.perServer : ℤ) * d.servers < 2 ^ 31 := by
    rw [mul_comm]
    exact_mod_cast d.fits
  exact ⟨le_trans (by positivity) (d.sources s b hb).1, lt_trans (source_lt hb) hfits⟩

theorem Spans.bounds (h : d.Spans s w) : 1 ≤ w ∧ w ≤ d.perServer := by
  obtain ⟨low, high, hlow, hhigh, rfl⟩ := h
  have hle := hhigh.2 hlow.1
  obtain ⟨b, hb, rfl⟩ := hlow.1
  obtain ⟨c, hc, rfl⟩ := hhigh.1
  have hfirst := (d.sources s b hb).1
  have hlast := (d.sources s c hc).2
  omega

theorem Spans.unique {w' : ℤ} (h : d.Spans s w) (h' : d.Spans s w') : w = w' := by
  obtain ⟨low, high, hlow, hhigh, rfl⟩ := h
  obtain ⟨low', high', hlow', hhigh', rfl⟩ := h'
  rw [hlow.unique hlow', hhigh.unique hhigh']

/-- What a server with a block sets. -/
theorem Spans.call_eq (h : d.Spans s w) : (d.call iteration s).1 = some (w * d.servers).toNat := by
  obtain ⟨hpos, hle⟩ := h.bounds
  obtain ⟨low, high, hlow, hhigh, rfl⟩ := h
  have hsome : (d.vars s).getSourceRange = some (low, high) :=
    ((d.vars s).endsOf_extremal Block.source).eq_some hlow hhigh
  have hnonneg : 0 ≤ (high - low + 1) * d.servers := by positivity
  have hlt : (high - low + 1) * d.servers < 2 ^ 31 := by
    calc (high - low + 1) * d.servers ≤ d.perServer * d.servers :=
          mul_le_mul_of_nonneg_right hle (by positivity)
      _ < 2 ^ 31 := by
          rw [mul_comm]
          exact_mod_cast d.fits
  simp only [call, addBlocksToVtkGrid, numberOfPieces, hsome]
  rw [if_pos ((toInt_eq_self_iff hnonneg).mpr hlt), Int.emod_eq_of_lt hnonneg (by omega)]

theorem call_eq_some {n : ℕ} (h : (d.call iteration s).1 = some n) : ∃ w, d.Spans s w := by
  have hrange := (d.vars s).endsOf_extremal Block.source
  cases heq : (d.vars s).getSourceRange with
  | none =>
    simp only [call, addBlocksToVtkGrid, numberOfPieces, heq] at h
    cases h
  | some r =>
    obtain ⟨low, high⟩ := r
    exact ⟨_, low, high, hrange.lowest _ _ heq, hrange.biggest _ _ heq, rfl⟩

theorem mem_blocks_of_visited (hb : b ∈ d.visited iteration s) : b ∈ (d.vars s).blocks :=
  List.mem_of_mem_filter (visited_subset hb)

theorem pieceId_source (hb : b ∈ (d.vars s).blocks) : (pieceId b.source : ℤ) = b.source :=
  pieceId_of_lt (source_bounds hb).1 (source_bounds hb).2

theorem used_call : (d.call iteration s).2.used =
    (d.visited iteration s).map fun b => (b.source, pieceId b.source) := by
  refine used_addPieces _ _ ?_
  have hnodup : ((d.vars s).blocksByIteration ((d.vars s).normalise iteration)).Nodup :=
    (List.Nodup.of_map _ (d.vars s).blocks.nodup).filter _
  refine hnodup.pairwise_of_forall_ne fun b hb c hc hne heq => hne ?_
  obtain ⟨hb, hib⟩ := List.mem_filter.mp hb
  obtain ⟨hc, hic⟩ := List.mem_filter.mp hc
  refine d.one s b hb c hc ((of_decide_eq_true hib).trans (of_decide_eq_true hic).symm) ?_
  rw [← pieceId_source hb, ← pieceId_source hc, heq]

/-- All servers store blocks, of a range of sources of the same length, and no block that is come to
has a source beyond that length for each server. -/
def Aligned (d : Deployment D) (iteration : ℤ) : Prop :=
  ∃ w, ∀ s, d.Spans s w ∧ ∀ b ∈ d.visited iteration s, b.source < w * d.servers

theorem Numbered.aligned (h : d.Numbered iteration) : d.Aligned iteration := by
  obtain ⟨n, hn⟩ := h.same
  have hspans : ∀ s, ∃ w, d.Spans s w := fun s => call_eq_some (hn s)
  choose w hw using hspans
  -- every server's length is the number of pieces over that of servers
  have hnumber : ∀ s, w s * d.servers = n := fun s => by
    have heq := Option.some.inj ((hw s).call_eq.symm.trans (hn s))
    have hnonneg : 0 ≤ w s * d.servers :=
      mul_nonneg (by linarith [(hw s).bounds.1]) (by positivity)
    omega
  refine ⟨n / d.servers, fun s => ?_⟩
  have hservers : (d.servers : ℤ) ≠ 0 := by
    have hlt := s.isLt
    omega
  have hlength : (n : ℤ) / d.servers = w s := by
    rw [← hnumber s, Int.mul_ediv_cancel _ hservers]
  rw [hlength]
  refine ⟨hw s, fun b hb => ?_⟩
  have hbelow := h.below s n (hn s) (b.source, pieceId b.source) (by
    rw [used_call]
    exact List.mem_map_of_mem hb)
  rw [hnumber s, ← pieceId_source (mem_blocks_of_visited hb)]
  exact_mod_cast hbelow

theorem Aligned.numbered (h : d.Aligned iteration) : d.Numbered iteration := by
  obtain ⟨w, hw⟩ := h
  refine ⟨⟨_, fun s => (hw s).1.call_eq⟩, fun s n hn u hu => ?_, fun s t u hu v hv hne heq => ?_⟩
  · rw [used_call] at hu
    obtain ⟨b, hb, rfl⟩ := List.mem_map.mp hu
    have hlt := (hw s).2 b hb
    rw [← pieceId_source (mem_blocks_of_visited hb)] at hlt
    rw [(hw s).1.call_eq] at hn
    have hnumber := Option.some.inj hn
    omega
  · rw [used_call] at hu hv
    obtain ⟨b, hb, rfl⟩ := List.mem_map.mp hu
    obtain ⟨c, hc, rfl⟩ := List.mem_map.mp hv
    refine hne ?_
    dsimp only at heq ⊢
    rw [← pieceId_source (mem_blocks_of_visited hb), ← pieceId_source (mem_blocks_of_visited hc),
      heq]

/-- The pieces are numbered through in these states and in no other. -/
theorem numbered_iff (d : Deployment D) (iteration : ℤ) : d.Numbered iteration ↔ d.Aligned iteration :=
  ⟨Numbered.aligned, Aligned.numbered⟩

theorem mem_values_bounds {x : ℤ} (hx : x ∈ (d.vars s).values Block.source) :
    (s : ℤ) * d.perServer ≤ x ∧ x < (s : ℤ) * d.perServer + d.perServer := by
  obtain ⟨b, hb, rfl⟩ := hx
  exact d.sources s b hb

theorem exists_ends {x : ℤ} (hx : x ∈ (d.vars s).values Block.source) :
    ∃ low high, IsLeast ((d.vars s).values Block.source) low ∧
      IsGreatest ((d.vars s).values Block.source) high := by
  have hrange := (d.vars s).endsOf_extremal Block.source
  obtain ⟨low, high, heq⟩ := hrange.exists_eq_some hx
  exact ⟨low, high, hrange.lowest _ _ heq, hrange.biggest _ _ heq⟩

/-- Only a server whose first and last clients wrote spans all of its clients. -/
theorem spans_perServer_iff : d.Spans s d.perServer ↔
    (s : ℤ) * d.perServer ∈ (d.vars s).values Block.source ∧
      (s : ℤ) * d.perServer + d.perServer - 1 ∈ (d.vars s).values Block.source := by
  constructor
  · rintro ⟨low, high, hlow, hhigh, heq⟩
    have hfirst := mem_values_bounds hlow.1
    have hlast := mem_values_bounds hhigh.1
    have hlow' : low = (s : ℤ) * d.perServer := by omega
    have hhigh' : high = (s : ℤ) * d.perServer + d.perServer - 1 := by omega
    rw [← hhigh', ← hlow']
    exact ⟨hlow.1, hhigh.1⟩
  · rintro ⟨hfirst, hlast⟩
    refine ⟨_, _, ⟨hfirst, fun x hx => (mem_values_bounds hx).1⟩, ⟨hlast, fun x hx => ?_⟩, by omega⟩
    have hlt := (mem_values_bounds hx).2
    omega

/-- The last of several servers has room for its clients only if every server spans all its own. -/
theorem eq_perServer (hone : d.servers ≠ 1) (hspans : ∀ s, d.Spans s w)
    (hlast : ∀ s, ∀ x ∈ (d.vars s).values Block.source, x < w * d.servers) (s : Fin d.servers) :
    w = d.perServer := by
  have hs := s.isLt
  let t : Fin d.servers := ⟨d.servers - 1, by omega⟩
  have hle := (hspans t).bounds.2
  obtain ⟨low, high, hlow, hhigh, heq⟩ := hspans t
  have hlt := hlast t high hhigh.1
  have hfirst := (mem_values_bounds hlow.1).1
  have hcast : ((t : ℕ) : ℤ) = d.servers - 1 := by
    dsimp only [t]
    omega
  rw [hcast] at hfirst
  refine le_antisymm hle ?_
  have hprod : ((d.servers : ℤ) - 1) * d.perServer ≤ (d.servers - 1) * w := by linarith
  exact le_of_mul_le_mul_left hprod (by omega)

/-- When all that is stored is of the iteration and is attached, the clients at both ends of every
server must have written. A server alone needs the first one only. -/
theorem numbered_iff_ends (d : Deployment D) (iteration : ℤ)
    (hall : ∀ s, ∀ b ∈ (d.vars s).blocks, b ∈ d.visited iteration s) :
    d.Numbered iteration ↔ (d.servers = 1 ∧ ∀ s, 0 ∈ (d.vars s).values Block.source) ∨
      ∀ s, (s : ℤ) * d.perServer ∈ (d.vars s).values Block.source ∧
        (s : ℤ) * d.perServer + d.perServer - 1 ∈ (d.vars s).values Block.source := by
  constructor
  · intro h
    obtain ⟨w, hw⟩ := h.aligned
    have hlast : ∀ s, ∀ x ∈ (d.vars s).values Block.source, x < w * d.servers := by
      rintro s x ⟨b, hb, rfl⟩
      exact (hw s).2 b (hall s b hb)
    by_cases hone : d.servers = 1
    · refine .inl ⟨hone, fun s => ?_⟩
      obtain ⟨low, high, hlow, hhigh, rfl⟩ := (hw s).1
      have hlt := hlast s high hhigh.1
      obtain ⟨b, hb, rfl⟩ := hlow.1
      have hnonneg := (source_bounds hb).1
      rw [hone, Nat.cast_one, mul_one] at hlt
      exact ⟨b, hb, by omega⟩
    · refine .inr fun s => spans_perServer_iff.mp ?_
      rw [← eq_perServer hone (fun s => (hw s).1) hlast s]
      exact (hw s).1
  · rintro (⟨hone, hzero⟩ | hends)
    · have hs : ∀ s : Fin d.servers, s = ⟨0, by omega⟩ := fun s => Fin.ext (by omega)
      obtain ⟨low, high, hlow, hhigh⟩ := exists_ends (hzero ⟨0, by omega⟩)
      have hlow' : low = 0 := by
        obtain ⟨b, hb, rfl⟩ := hlow.1
        exact le_antisymm (hlow.2 (hzero _)) (source_bounds hb).1
      refine Aligned.numbered ⟨high - low + 1, fun s => ?_⟩
      rw [hs s]
      refine ⟨⟨low, high, hlow, hhigh, rfl⟩, fun b hb => ?_⟩
      have hle := hhigh.2 ⟨b, mem_blocks_of_visited hb, rfl⟩
      rw [hone, Nat.cast_one]
      omega
    · exact Aligned.numbered ⟨d.perServer, fun s => ⟨spans_perServer_iff.mpr (hends s), fun b hb =>
        source_lt (mem_blocks_of_visited hb)⟩⟩

/-- What two servers with two clients each store when client 2 wrote nothing. -/
def withoutClientTwo : Fin 2 → List (Block Unit)
  | 0 => [.new 0 0 0 ⟨8, []⟩, .new 1 0 0 ⟨8, []⟩]
  | 1 => [.new 3 0 0 ⟨8, []⟩]

def halfWritten : Deployment Unit where
  servers := 2
  perServer := 2
  fits := by decide
  field := ⟨.double, .zonal, false⟩
  vars s := ⟨true, ⟨8, []⟩, fun _ => none, ⟨withoutClientTwo s, by fin_cases s <;> decide⟩⟩
  sources s b hb := by
    have hall : ∀ s, ∀ b ∈ withoutClientTwo s,
        ((s : ℕ) : ℤ) * 2 ≤ b.source ∧ b.source < ((s : ℕ) : ℤ) * 2 + 2 := by decide
    exact hall s b hb
  one s b hb c hc _ hsource := by
    have hall : ∀ s, ∀ b ∈ withoutClientTwo s, ∀ c ∈ withoutClientTwo s,
        b.source = c.source → b = c := by decide
    exact hall s b hb c hc hsource
  getVtkGrid _ b := some b.source.toNat
  pieces _ _ := none

/-- The second server sets 2 pieces, and uses the id 3. -/
theorem not_numbered_halfWritten :
    ¬ ∀ (d : Deployment Unit) (iteration : ℤ), d.Numbered iteration := by
  intro h
  have hbelow := (h halfWritten 0).below (1 : Fin 2) 2 (by decide +kernel) (3, 3) (by decide)
  exact absurd hbelow (by decide)

end Deployment
end Paraview
end Damaris
