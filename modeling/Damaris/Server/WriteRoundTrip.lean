import Damaris.Client.Client
import Damaris.Server.Handlers

/-!
# A block, from `Client::Write` to `Server::OnWrite`

The client reads the bounds of its block into the arrays of a message, and the
server fills the block it creates from them. Both compute the size of the data on
their own: the client from the layout, the server from the bounds.
-/
namespace Damaris

open Data Msg

/-- `MAX_DIMENSIONS`: the entries of the arrays in a message. -/
def maxDimensions : ℕ := 16

/-- A layout whose blocks can be written: they fit the arrays of a message, are
not empty, and have extents that a `size_t` holds. -/
structure Data.Layout.Writable (l : Layout) : Prop where
  dims_pos : 0 < l.dimensions
  dims_le : l.dimensions ≤ maxDimensions
  extents_pos : ∀ d ∈ l.along, 0 < d.extent
  global_lt : ∀ d ∈ l.along, d.global < 2 ^ 64

/-- A shared segment: what it hands out for a request (a size and an address), and
the handles of addresses. The client makes the handle, the server resolves it, each in its
own mapping of the segment. -/
structure Segment (A H : Type*) where
  allocate : ℕ → ℕ × Option A
  getHandleFromAddress : A → H
  getAddressFromHandle : H → Option A
  resolves : ∀ a, getAddressFromHandle (getHandleFromAddress a) = some a

namespace Segment

/-- A segment whose handles are the addresses. -/
def plain {A : Type*} (allocate : ℕ → ℕ × Option A) : Segment A A :=
  ⟨allocate, id, some, fun _ => rfl⟩

variable {A H : Type*} (seg : Segment A H)

/-- The segment as the client's variables use it: a dataspace is an address with a size,
refused when its size is not the one asked for. -/
def client : Buffer Unit (A × ℕ) :=
  let allocate := fun n => if (seg.allocate n).1 = n then some ((seg.allocate n).2.map (·, n))
    else none
  ⟨allocate, allocate, fun _ _ => none⟩

/-- The segment as the server's variables use it: a dataspace is linked to the address of a
handle, with the size that the caller computed. -/
def server : Buffer (Option H) (A × ℕ) :=
  ⟨fun _ => none, fun _ => none, fun h n => (h.bind seg.getAddressFromHandle).map (·, n)⟩

/-- The message with the handle in it. -/
def encode (wr : WriteMessage (Option (A × ℕ))) : WriteMessage (Option H) :=
  { wr with handle := wr.handle.map fun ds => seg.getHandleFromAddress ds.1 }

theorem client_allocate {n : ℕ} {ds : A × ℕ} (h : seg.client.allocate n = some (some ds)) :
    ds.2 = n := by
  unfold client at h
  simp only at h
  split_ifs at h
  obtain ⟨a, -, rfl⟩ := Option.map_eq_some_iff.mp (Option.some.inj h)
  rfl

theorem server_link (a : A) (n : ℕ) :
    seg.server.link (some (seg.getHandleFromAddress a)) n = some (a, n) := by
  simp [server, seg.resolves]

end Segment

namespace Data

variable {D : Type*}

/-- A block that spans the extents of a layout, wherever it lies. -/
structure Block.Spans (l : Layout) (b : Block D) : Prop where
  lower : b.lowerBounds.length = l.dimensions
  upper : b.upperBounds.length = l.dimensions
  globalDims : b.globalDims = l.along.map Dimension.global
  ghosts : b.ghosts = l.along.map Dimension.ghost
  extents : List.zipWith (fun u l => u - l + 1) b.upperBounds b.lowerBounds =
    l.along.map fun d => (d.extent : ℤ)

namespace Block

variable {l : Layout}

theorem spans_new (source iteration id : ℤ) (l : Layout) :
    (new source iteration id l : Block D).Spans l := by
  refine ⟨by simp [new, Layout.dimensions], by simp [new, Layout.dimensions], rfl, rfl, ?_⟩
  simp only [new]
  induction l.along with
  | nil => rfl
  | cons d along ih => simpa using ih

theorem Spans.setDataSpace {b : Block D} (h : b.Spans l) (ds : Option D) :
    (b.setDataSpace ds).Spans l := ⟨h.lower, h.upper, h.globalDims, h.ghosts, h.extents⟩

/-- Moving both bounds by the same amount keeps the extent. -/
theorem extents_move {us ls p : List ℤ} (hu : us.length = p.length) (hl : ls.length = p.length) :
    List.zipWith (fun u l => u - l + 1)
      (List.zipWith (· + ·) us (List.zipWith (· - ·) p ls)) p =
      List.zipWith (fun u l => u - l + 1) us ls := by
  induction p generalizing us ls with
  | nil => simp [List.length_eq_zero_iff.mp hu]
  | cons x p ih =>
    obtain ⟨u, us, rfl⟩ := List.exists_cons_of_length_eq_add_one hu
    obtain ⟨l, ls, rfl⟩ := List.exists_cons_of_length_eq_add_one hl
    simp only [List.length_cons, Nat.add_right_cancel_iff] at hu hl
    simp only [List.zipWith_cons_cons, ih hu hl, List.cons.injEq, and_true]
    omega

theorem Spans.move {b : Block D} (h : b.Spans l) (p : List ℤ) : (b.move l.dimensions p).Spans l := by
  unfold Block.move
  by_cases hp : p.length = l.dimensions
  · rw [if_neg (not_not.mpr hp)]
    refine ⟨hp, ?_, h.globalDims, h.ghosts, ?_⟩
    · simp [h.upper, h.lower, hp]
    · exact (extents_move (h.upper.trans hp.symm) (h.lower.trans hp.symm)).trans h.extents
  · rw [if_pos hp]
    exact h

end Block

variable {v : Variable D}

theorem Variable.spans_place {b : Block D} (h : b.Spans v.layout) : (v.place b).Spans v.layout := by
  unfold Variable.place
  split
  · exact h
  · exact h.move _

/-- The block that `Allocate` makes of a dataspace. -/
def Variable.blockOf (v : Variable D) (source iteration bid : ℤ) (ds : Option D) : Block D :=
  v.adopt (v.place ((Block.new source (v.normalise iteration) bid v.layout).setDataSpace ds))

theorem Variable.getBlock_normalise (v : Variable D) (source iteration bid : ℤ) :
    v.getBlock source (v.normalise iteration) bid = v.getBlock source iteration bid := by
  rw [getBlock, normalise_normalise, getBlock]

theorem Variable.allocate_eq {H : Type*} (v : Variable D) (buffer : Buffer H D)
    (source iteration bid : ℤ) : v.allocate (some buffer) source iteration bid =
      if (v.getBlock source iteration bid).isSome then (v, none)
      else
        match buffer.allocate v.layout.requiredMemory with
        | none => (v, none)
        | some ds => ({ v with blocks := (v.blocks.insert (v.blockOf source iteration bid ds)).1 },
            some (v.blockOf source iteration bid ds)) := by
  rw [← v.getBlock_normalise source iteration bid]
  rfl

theorem Variable.place_eq (v : Variable D) (b : Block D) : (v.place b).source = b.source ∧
    (v.place b).iteration = b.iteration ∧ (v.place b).id = b.id ∧
      (v.place b).dataspace = b.dataspace ∧ (v.place b).readOnly = b.readOnly := by
  unfold place Block.move
  split
  · exact ⟨rfl, rfl, rfl, rfl, rfl⟩
  · split <;> exact ⟨rfl, rfl, rfl, rfl, rfl⟩

theorem Variable.spans_blockOf (v : Variable D) (source iteration bid : ℤ) (ds : Option D) :
    (v.blockOf source iteration bid ds).Spans v.layout := by
  have h := v.spans_place ((Block.spans_new source (v.normalise iteration) bid v.layout).setDataSpace ds)
  exact ⟨h.lower, h.upper, h.globalDims, h.ghosts, h.extents⟩

@[simp] theorem Variable.key_blockOf (v : Variable D) (source iteration bid : ℤ) (ds : Option D) :
    (v.blockOf source iteration bid ds).key = (source, v.normalise iteration, bid) := by
  obtain ⟨hs, hi, hid, -, -⟩ := v.place_eq
    ((Block.new source (v.normalise iteration) bid v.layout).setDataSpace ds)
  rw [blockOf, key_adopt, hs, hi, hid]
  exact congrArg (fun i => (source, i, bid)) (v.normalise_normalise iteration)

@[simp] theorem Variable.dataspace_blockOf (v : Variable D) (source iteration bid : ℤ)
    (ds : Option D) : (v.blockOf source iteration bid ds).dataspace = ds :=
  (v.place_eq _).2.2.2.1

@[simp] theorem Variable.readOnly_blockOf (v : Variable D) (source iteration bid : ℤ)
    (ds : Option D) : (v.blockOf source iteration bid ds).readOnly = false :=
  (v.place_eq _).2.2.2.2

/-! ## The arrays of a message -/

theorem range_map_getD {α : Type*} {d : ℕ} {xs : List α} (h : xs.length = d) (x : α) :
    (List.range d).map (fun i => xs.getD i x) = xs := by
  subst h
  refine List.ext_getElem (by simp) fun i _ hi => ?_
  simp [hi]

/-- The pairs of ghosts lie one after the other in their array. -/
theorem getD_ghosts (dims : List DimBounds) (i : ℕ) :
    ((bounds dims).ghosts.getD (2 * i) 0, (bounds dims).ghosts.getD (2 * i + 1) 0) =
      (dims.map DimBounds.ghost).getD i (0, 0) := by
  simp only [bounds]
  induction dims generalizing i with
  | nil => simp
  | cons d dims ih =>
    cases i with
    | zero => simp
    | succ i => simpa [Nat.mul_succ] using ih i

/-- What the server reads from a message are the bounds that the client has put in. -/
theorem bounds_dimsOf {l : Layout} {b : Block D} (h : b.Spans l) :
    (bounds (dimsOf l.dimensions b)).lbounds = b.lowerBounds ∧
      (bounds (dimsOf l.dimensions b)).ubounds = b.upperBounds := by
  simp only [bounds, dimsOf, List.map_map]
  exact ⟨range_map_getD h.lower 0, range_map_getD h.upper 0⟩

theorem setBounds_dimsOf {D' : Type*} {l : Layout} {b : Block D} (h : b.Spans l)
    (hglobal : ∀ d ∈ l.along, d.global < 2 ^ 64) (b' : Block D') :
    b'.setBounds l.dimensions (bounds (dimsOf l.dimensions b)) =
      { b' with
        lowerBounds := b.lowerBounds
        upperBounds := b.upperBounds
        globalDims := b.globalDims
        ghosts := b.ghosts } := by
  obtain ⟨hl, hu⟩ := bounds_dimsOf h
  have hglobalDims : b.globalDims.length = l.dimensions := by rw [h.globalDims, List.length_map]; rfl
  have hghosts : b.ghosts.length = l.dimensions := by rw [h.ghosts, List.length_map]; rfl
  have hg : (((bounds (dimsOf l.dimensions b)).gbounds.take l.dimensions).map toSize) =
      b.globalDims := by
    have htake : (bounds (dimsOf l.dimensions b)).gbounds.take l.dimensions =
        b.globalDims.map ((↑) : ℕ → ℤ) := by
      rw [List.take_of_length_le (by simp [bounds])]
      simp only [bounds, dimsOf, List.map_map]
      refine (List.map_map (f := fun i => b.globalDims.getD i 0)).symm.trans ?_
      rw [range_map_getD hglobalDims]
      rfl
    rw [htake, List.map_map, List.map_congr_left (g := id), List.map_id]
    intro n hn
    rw [h.globalDims] at hn
    obtain ⟨d, hd, rfl⟩ := List.mem_map.mp hn
    have hlt := hglobal d hd
    simp only [Function.comp_apply, toSize, id]
    omega
  have hgh : ((List.range l.dimensions).map fun i =>
      ((bounds (dimsOf l.dimensions b)).ghosts.getD (2 * i) 0,
        (bounds (dimsOf l.dimensions b)).ghosts.getD (2 * i + 1) 0)) = b.ghosts := by
    have hmap : (dimsOf l.dimensions b).map DimBounds.ghost = b.ghosts := by
      rw [dimsOf, List.map_map]
      exact range_map_getD hghosts (0, 0)
    simp only [getD_ghosts, hmap]
    exact range_map_getD hghosts (0, 0)
  unfold Block.setBounds
  rw [hl, hu, hg, hgh, List.take_of_length_le h.lower.le, List.take_of_length_le h.upper.le]

/-- The server's product of the bounds is the client's product of the extents. -/
theorem boundsSize_dimsOf {v : Variable D} {b : Block D} (h : b.Spans v.layout) :
    v.boundsSize (bounds (dimsOf v.layout.dimensions b)) = v.layout.requiredMemory := by
  obtain ⟨hl, hu⟩ := bounds_dimsOf h
  rw [Variable.boundsSize, hl, hu, h.extents, Layout.requiredMemory]
  congr 2
  rw [Nat.cast_list_prod, List.map_map]
  rfl

/-- With the bounds of a block, `Retrieve` makes a block of the same bounds. -/
theorem retrieveBounds_dimsOf {H : Type*} {v : Variable D} {buffer : Buffer H D}
    {source iteration bid : ℤ} {b : Block D} {h : H} {ds : D} (hspans : b.Spans v.layout)
    (hglobal : ∀ d ∈ v.layout.along, d.global < 2 ^ 64)
    (hkey : b.key = (source, v.normalise iteration, bid)) (hro : b.readOnly = false)
    (hds : b.dataspace = some ds) (hlink : buffer.link h v.layout.requiredMemory = some ds) :
    v.retrieveBounds (some buffer) source iteration bid
        (bounds (dimsOf v.layout.dimensions b)) h =
      if (v.getBlock source iteration bid).isSome then some (v, none)
      else some ({ v with blocks := (v.blocks.insert b).1 }, some b) := by
  have hcovers : (bounds (dimsOf v.layout.dimensions b)).Covers v.layout.dimensions := by
    have hcov := covers_bounds (dimsOf v.layout.dimensions b)
    rwa [length_dimsOf] at hcov
  rw [Variable.retrieveBounds, if_neg (by simp), boundsSize_dimsOf hspans, Variable.retrieve]
  simp only
  by_cases hget : (v.getBlock source iteration bid).isSome
  · rw [if_pos hget, if_pos hget]
  · rw [if_neg hget, if_neg hget, hlink]
    simp only
    rw [if_pos hcovers]
    set new := (Block.new source iteration bid v.layout).setDataSpace (some ds) with hnew
    set placed := (v.attachBlock (some new)).1.place (v.adopt new) with hplaced
    have hplace := (v.attachBlock (some new)).1.place_eq (v.adopt new)
    have hb : placed.setBounds v.layout.dimensions (bounds (dimsOf v.layout.dimensions b)) = b := by
      obtain ⟨hs, hi, hid, hd, hr⟩ := hplace
      obtain ⟨hkey₁, hkey₂, hkey₃⟩ : b.source = source ∧ b.iteration = v.normalise iteration ∧
          b.id = bid := by
        simpa only [Block.key, Prod.mk.injEq] using hkey
      rw [setBounds_dimsOf hspans hglobal]
      obtain ⟨_, _, _, _, _, _, _, _, _⟩ := b
      simp only at hkey₁ hkey₂ hkey₃ hds hro
      simp only [Block.mk.injEq, true_and]
      exact ⟨hs.trans hkey₁.symm, hi.trans hkey₂.symm, hid.trans hkey₃.symm, hd.trans hds.symm,
        hr.trans hro.symm⟩
    have hfree : v.blocks.find (v.adopt new).key = none := Option.not_isSome_iff_eq_none.mp hget
    have hkeyb : b.key = (v.adopt new).key := hkey
    have hkeyp : placed.key = (v.adopt new).key := Variable.key_place _ _
    rw [hb]
    simp only [Variable.store, Variable.attachBlock]
    rw [KeyedStore.replace_insert hfree hkeyp]
    rw [KeyedStore.replace_insert (by rw [hkeyp]; exact hfree) (hkeyb.trans hkeyp.symm)]

end Data

/-! ## The whole way -/

/-- A message of `Write` describes the block that the client has filled. -/
theorem Client.write_sent {D : Type*} {c c' : Client D} {id block : ℤ} {buffer : Buffer Unit D}
    {st : Status} {wr : WriteMessage (Option D)} {v : Variable D} (hv : c.vars id = some v)
    (h : c.write id block (some buffer) = (c', st, some wr)) :
    ∃ ds, buffer.allocate v.layout.requiredMemory = some (some ds) ∧
      v.allocate (some buffer) c.source c.iteration block =
        ({ v with blocks :=
            (v.blocks.insert (v.blockOf c.source c.iteration block (some ds))).1 },
          some (v.blockOf c.source c.iteration block (some ds))) ∧
      wr = { id := id, source := c.source, iteration := c.iteration, block := block,
             dims := dimsOf v.layout.dimensions (v.blockOf c.source c.iteration block (some ds)),
             handle := some ds } := by
  unfold Client.write at h
  cases hs : c.search id block with
  | error e =>
    rw [hs] at h
    simp at h
  | ok w =>
    obtain rfl : w = v := Option.some.inj ((search_ok hs).symm.trans hv)
    rw [hs] at h
    simp only [w.allocate_eq] at h ⊢
    by_cases hget : (w.getBlock c.source c.iteration block).isSome
    · rw [if_pos hget] at h
      simp at h
    · rw [if_neg hget] at h ⊢
      cases hds : buffer.allocate w.layout.requiredMemory with
      | none =>
        rw [hds] at h
        simp at h
      | some ds =>
        rw [hds] at h
        simp only [Variable.dataspace_blockOf] at h
        cases ds with
        | none => simp at h
        | some ds =>
          simp only [Prod.mk.injEq, Option.some.injEq] at h
          exact ⟨ds, rfl, rfl, h.2.2.symm⟩

/-- The server makes of the message of a `Write` the block that the client has filled: with
the client's source, the iteration under which the variable files it, its id and bounds,
and as data the region that the client has filled, with as many bytes as it has copied. -/
theorem write_round_trip {A H : Type*} (seg : Segment A H) {c c' : Client (A × ℕ)} {id block : ℤ}
    {st : Status} {wr : WriteMessage (Option (A × ℕ))} {vs : Variables (A × ℕ)}
    {v sv : Variable (A × ℕ)} (hv : c.vars id = some v) (hl : v.layout.Writable)
    (hwrite : c.write id block (some seg.client) = (c', st, some wr)) (hsv : vs id = some sv)
    (htv : sv.timeVarying = v.timeVarying) (hlayout : sv.layout = v.layout)
    (hfree : sv.getBlock c.source c.iteration block = none) :
    ∃ filled b a vs', (v.allocate (some seg.client) c.source c.iteration block).2 = some filled ∧
      filled.dataspace = some (a, v.layout.requiredMemory) ∧
      vs.onWrite (some seg.server) c.source (seg.encode wr) = some (vs', some b) ∧
      vs'.Stores id b ∧ b.source = c.source ∧ b.iteration = v.normalise c.iteration ∧
      b.id = block ∧ b.lowerBounds = filled.lowerBounds ∧ b.upperBounds = filled.upperBounds ∧
      b.globalDims = filled.globalDims ∧ b.ghosts = filled.ghosts ∧
      b.dataspace = some (a, toSize (v.layout.typeSize *
        (List.zipWith (fun u l => u - l + 1) b.upperBounds b.lowerBounds).prod)) ∧
      b.dataspace = filled.dataspace := by
  obtain ⟨ds, hds, halloc, rfl⟩ := Client.write_sent hv hwrite
  obtain ⟨a, n⟩ := ds
  obtain rfl : n = v.layout.requiredMemory := seg.client_allocate hds
  set b := v.blockOf c.source c.iteration block (some (a, v.layout.requiredMemory)) with hb
  have hspans : b.Spans sv.layout := hlayout ▸ v.spans_blockOf _ _ _ _
  have hnorm : sv.normalise c.iteration = v.normalise c.iteration := Variable.normalise_congr htv _
  have hkey : b.key = (c.source, v.normalise c.iteration, block) := v.key_blockOf _ _ _ _
  have hlink : seg.server.link (some (seg.getHandleFromAddress a)) sv.layout.requiredMemory =
      some (a, v.layout.requiredMemory) := by
    rw [seg.server_link, hlayout]
  have hret := retrieveBounds_dimsOf hspans (hlayout ▸ hl.global_lt) (hnorm ▸ hkey)
    (v.readOnly_blockOf _ _ _ _) (v.dataspace_blockOf _ _ _ _) hlink
  rw [hfree, if_neg (by simp), hlayout] at hret
  have honWrite : vs.onWrite (some seg.server) c.source (seg.encode
      { id := id, source := c.source, iteration := c.iteration, block := block,
        dims := dimsOf v.layout.dimensions b, handle := some (a, v.layout.requiredMemory) }) =
      some (vs.set id { sv with blocks := (sv.blocks.insert b).1 }, some b) := by
    simp only [Variables.onWrite, Variables.retrieve, Segment.encode, hsv, Option.map_some, hret,
      hlayout]
  have hfind : sv.blocks.find b.key = none := by
    rw [hkey, ← hnorm]
    exact hfree
  obtain ⟨hsource, hiter, hid⟩ : b.source = c.source ∧ b.iteration = v.normalise c.iteration ∧
      b.id = block := by
    simpa only [Block.key, Prod.mk.injEq] using hkey
  refine ⟨b, b, a, _, by rw [halloc], v.dataspace_blockOf _ _ _ _, honWrite,
    Variables.stores_set.mpr (.inl ⟨rfl, ((KeyedStore.insert_of_find_none hfind).1 b).mpr (.inr rfl)⟩),
    hsource, hiter, hid, rfl, rfl, rfl, rfl, ?_, rfl⟩
  have hsize := boundsSize_dimsOf (v := v) (v.spans_blockOf c.source c.iteration block
    (some (a, v.layout.requiredMemory)))
  obtain ⟨hlb, hub⟩ := bounds_dimsOf (v.spans_blockOf c.source c.iteration block
    (some (a, v.layout.requiredMemory)))
  rw [Variable.boundsSize, hlb, hub] at hsize
  rw [← hb] at hsize
  rw [hsize]
  exact v.dataspace_blockOf _ _ _ _

/-- A segment with one address. -/
def oneAddress : Segment ℕ ℕ := .plain fun n => (n, some 64)

/-- A variable of two by three elements, whose domain 0 lies at (4, 6). -/
def placedVariable : Variable (ℕ × ℕ) :=
  { Variable.new true ⟨4, [⟨2, 8, (0, 1)⟩, ⟨3, 9, (1, 0)⟩]⟩ with
    positions := Function.update (fun _ => none) 0 (some [4, 6]) }

theorem writable_placedVariable : placedVariable.layout.Writable := by
  refine ⟨by decide, by decide, ?_, ?_⟩ <;>
    simp [placedVariable, Variable.new]

/-- A client in iteration 5 that has this variable, and a server that has it without the position. -/
def placedClient : Client (ℕ × ℕ) := ⟨3, 5, 1, fun _ => some placedVariable, false⟩

def placedServer : Variables (ℕ × ℕ) := fun _ => some (Variable.new true placedVariable.layout)

theorem write_round_trip_placed : ∃ c' wr b vs',
    placedClient.write 0 0 (some oneAddress.client) = (c', .OK, some wr) ∧
      placedServer.onWrite (some oneAddress.server) 3 (oneAddress.encode wr) = some (vs', some b) ∧
      b.key = (3, 5, 0) ∧ b.lowerBounds = [4, 6] ∧ b.upperBounds = [5, 8] ∧
      b.dataspace = some (64, 24) := by
  obtain ⟨c', wr, hwr⟩ : ∃ c' wr,
      placedClient.write 0 0 (some oneAddress.client) = (c', .OK, some wr) := ⟨_, _, rfl⟩
  have hserver : placedServer 0 = some (Variable.new true placedVariable.layout) := rfl
  obtain ⟨filled, b, a, vs', hfilled, hdata, hwrite, -, hs, hi, hid, hlb, hub, -, -, -, hds⟩ :=
    write_round_trip oneAddress rfl writable_placedVariable hwr hserver rfl rfl rfl
  obtain rfl := Option.some.inj hfilled
  refine ⟨c', wr, b, vs', hwr, hwrite, ?_, hlb, hub, hds⟩
  rw [Block.key, hs, hi, hid]
  rfl

end Damaris
