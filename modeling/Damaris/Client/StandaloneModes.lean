import Damaris.Client.StandaloneClient

/-!
# Standalone and dedicated modes agree

What the core will have once it has handled all messages in flight is what the
client without a server has: of each variable the same blocks from the current iteration
on, and the same updates. Only the codes differ, when a block is written again:
a client with a server no longer has it.
-/
namespace Damaris.Standalone

open Data Msg

variable {m m' : Memory}

/-- Two blocks with the same bytes, each in its own memory. -/
structure SameBlock (m m' : Memory) (b b' : Block (ℕ × ℕ)) : Prop where
  fields : { b with dataspace := b'.dataspace } = b'
  bytes : ∃ i j n x, b.dataspace = some (i, n) ∧ b'.dataspace = some (j, n) ∧
    m[i]? = some x ∧ m'[j]? = some x

theorem SameBlock.contents {b b' : Block (ℕ × ℕ)} (h : SameBlock m m' b b') :
    contents m b = contents m' b' := by
  obtain ⟨i, j, n, x, hb, hb', hi, hj⟩ := h.bytes
  rw [← h.fields]
  simp [Standalone.contents, hb, hb', hi, hj]

theorem getElem?_append_of_some {α : Type*} {xs : List α} {i : ℕ} {x : α} (h : xs[i]? = some x)
    (ys : List α) : (xs ++ ys)[i]? = some x := by
  obtain ⟨hi, -⟩ := List.getElem?_eq_some_iff.mp h
  rw [List.getElem?_append_left hi, h]

/-- Regions that are handed out later change nothing. -/
theorem SameBlock.grow {b b' : Block (ℕ × ℕ)} (h : SameBlock m m' b b') {n n' : Memory}
    (hn : m <+: n) (hn' : m' <+: n') : SameBlock n n' b b' := by
  obtain ⟨i, j, k, x, hb, hb', hi, hj⟩ := h.bytes
  obtain ⟨ys, rfl⟩ := hn
  obtain ⟨ys', rfl⟩ := hn'
  exact ⟨h.fields, i, j, k, x, hb, hb', getElem?_append_of_some hi ys, getElem?_append_of_some hj ys'⟩

/-- The same look-ups. -/
abbrev Same (m m' : Memory) := Option.Rel (SameBlock m m')

theorem Same.grow {o o' : Option (Block (ℕ × ℕ))} (h : Same m m' o o') {n n' : Memory}
    (hn : m <+: n) (hn' : m' <+: n') : Same n n' o o' := by
  cases h with
  | none => exact .none
  | some h => exact .some (h.grow hn hn')

theorem Same.isSome_iff {o o' : Option (Block (ℕ × ℕ))} (h : Same m m' o o') :
    o.isSome = o'.isSome := by
  cases h <;> rfl

theorem Same.map_contents {o o' : Option (Block (ℕ × ℕ))} (h : Same m m' o o') :
    o.map (contents m) = o'.map (contents m') := by
  cases h with
  | none => rfl
  | some h => exact congrArg some h.contents

/-- A variable of the client without a server, that of the other client, and that of its core,
from iteration `n` on. -/
structure Matches (source n : ℤ) (m m' : Memory) (v d w : Variable (ℕ × ℕ)) : Prop where
  timeVarying : d.timeVarying = v.timeVarying ∧ w.timeVarying = v.timeVarying
  layout : d.layout = v.layout ∧ w.layout = v.layout
  positions : d.positions = v.positions
  empty : ∀ b, b ∉ d.blocks
  normalised : v.Normalised ∧ w.Normalised
  global_lt : ∀ x ∈ v.layout.along, x.global < 2 ^ 64
  blocks : ∀ i bid, (v.timeVarying = true → n ≤ i) →
    Same m m' (v.blocks.find (source, v.normalise i, bid)) (w.blocks.find (source, v.normalise i, bid))

variable {source n : ℤ} {v d w : Variable (ℕ × ℕ)}

theorem Matches.grow (h : Matches source n m m' v d w) {k k' : Memory} (hk : m <+: k)
    (hk' : m' <+: k') : Matches source n k k' v d w :=
  { h with blocks := fun i bid hi => (h.blocks i bid hi).grow hk hk' }

theorem Matches.normalise (h : Matches source n m m' v d w) (i : ℤ) :
    d.normalise i = v.normalise i ∧ w.normalise i = v.normalise i :=
  ⟨Variable.normalise_congr h.timeVarying.1 i, Variable.normalise_congr h.timeVarying.2 i⟩

/-- The blocks of one iteration are the same: those of a variable that does not vary are
all filed under iteration 0. -/
theorem Matches.found (h : Matches source n m m' v d w) (bid : ℤ) :
    Same m m' (v.blocks.find (source, n, bid)) (w.blocks.find (source, n, bid)) := by
  cases htv : v.timeVarying with
  | true =>
    have hblocks := h.blocks n bid fun _ => le_rfl
    rwa [Variable.normalise, htv, if_pos rfl] at hblocks
  | false =>
    have hzero : v.normalise n = 0 := by rw [Variable.normalise, htv]; rfl
    have hblocks := h.blocks n bid fun he => absurd (htv.symm.trans he) Bool.false_ne_true
    rw [hzero] at hblocks
    by_cases hn : n = 0
    · rwa [hn]
    · have hnone : ∀ {u : Variable (ℕ × ℕ)}, u.Normalised → u.timeVarying = false →
          u.blocks.find (source, n, bid) = none := by
        intro u hu hfalse
        refine KeyedStore.find_eq_none.mpr fun b hb hkey => hn ?_
        rw [← hu hfalse b hb]
        exact (congrArg (fun k => k.2.1) hkey).symm
      rw [hnone h.normalised.1 htv, hnone h.normalised.2 (h.timeVarying.2.trans htv)]
      exact .none

/-! ## What the calls do to a variable -/

/-- A block is made in the same way wherever it is made. -/
theorem blockOf_congr (h : Matches source n m m' v d w) (i bid : ℤ) (ds ds' : Option (ℕ × ℕ)) :
    { v.blockOf source i bid ds with dataspace := ds' } = d.blockOf source i bid ds' := by
  unfold Variable.blockOf Variable.adopt Variable.place Variable.normalise Block.move
  rw [h.timeVarying.1, h.layout.1, h.positions]
  cases hpos : v.positions bid with
  | none => simp [Block.new, Block.setDataSpace, hpos]
  | some p =>
    by_cases hp : p.length = v.layout.dimensions <;> simp [Block.new, Block.setDataSpace, hpos, hp]

theorem Matches.setPosition (h : Matches source n m m' v d w) (bid : ℤ) (p : List ℤ) :
    Matches source n m m' (v.setPosition bid p).1 (d.setPosition bid p).1 w := by
  unfold Variable.setPosition
  by_cases hp : p.length = v.layout.dimensions
  · have hp' : p.length = d.layout.dimensions := by rw [h.layout.1, hp]
    rw [if_neg (not_not.mpr hp), if_neg (not_not.mpr hp')]
    exact { h with positions := by rw [h.positions] }
  · have hp' : p.length ≠ d.layout.dimensions := by rw [h.layout.1]; exact hp
    rw [if_pos hp, if_pos hp']
    exact h

theorem normalised_insert {u : Variable (ℕ × ℕ)} {b : Block (ℕ × ℕ)} (h : u.Normalised)
    (hfree : u.blocks.find b.key = none) (hb : u.timeVarying = false → b.iteration = 0) :
    Variable.Normalised { u with blocks := (u.blocks.insert b).1 } := by
  intro htv c hc
  rcases ((KeyedStore.insert_of_find_none hfree).1 c).mp hc with hc | rfl
  · exact h htv c hc
  · exact hb htv

/-- A block that no one has yet is filed by the client without a server and by the core. -/
theorem Matches.write (h : Matches source n m m' v d w) {bid : ℤ}
    (hfree : v.getBlock source n bid = none) {i j k : ℕ} {x : List UInt8} (hi : m[i]? = some x)
    (hj : m'[j]? = some x) {d' : Variable (ℕ × ℕ)} (htv : d'.timeVarying = d.timeVarying)
    (hlayout : d'.layout = d.layout) (hpos : d'.positions = d.positions) (hempty : ∀ b, b ∉ d'.blocks) :
    Matches source n m m'
      { v with blocks := (v.blocks.insert (v.blockOf source n bid (some (i, k)))).1 } d'
      { w with blocks := (w.blocks.insert (d.blockOf source n bid (some (j, k)))).1 } := by
  have hfree' : w.blocks.find (source, v.normalise n, bid) = none := by
    have hsame := (h.blocks n bid fun _ => le_rfl).isSome_iff
    rw [show v.blocks.find (source, v.normalise n, bid) = none from hfree] at hsame
    exact Option.not_isSome_iff_eq_none.mp (by simp [← hsame])
  have hkey : (d.blockOf source n bid (some (j, k))).key = (source, v.normalise n, bid) := by
    rw [Variable.key_blockOf, (h.normalise n).1]
  have hv := KeyedStore.insert_of_find_none (s := v.blocks)
    (x := v.blockOf source n bid (some (i, k))) (by rw [Variable.key_blockOf]; exact hfree)
  have hw := KeyedStore.insert_of_find_none (s := w.blocks)
    (x := d.blockOf source n bid (some (j, k))) (by rw [hkey]; exact hfree')
  have hzero : v.timeVarying = false → v.normalise n = 0 := fun he => by
    rw [Variable.normalise, he]; rfl
  have hiteration : ∀ {b : Block (ℕ × ℕ)}, b.key = (source, v.normalise n, bid) →
      v.timeVarying = false → b.iteration = 0 := fun hb he =>
    (congrArg (fun k => k.2.1) hb).trans (hzero he)
  refine { h with
    timeVarying := ⟨htv.trans h.timeVarying.1, h.timeVarying.2⟩
    layout := ⟨hlayout.trans h.layout.1, h.layout.2⟩
    positions := hpos.trans h.positions
    empty := hempty
    normalised := ⟨normalised_insert h.normalised.1 (by rw [Variable.key_blockOf]; exact hfree)
        (hiteration (Variable.key_blockOf ..)),
      normalised_insert h.normalised.2 (by rw [hkey]; exact hfree')
        fun he => hiteration hkey (h.timeVarying.2.symm.trans he)⟩
    blocks := fun i' bid' hi' => ?_ }
  have hfindv := KeyedStore.find_of_added hv.1 (by rw [Variable.key_blockOf]; exact hfree)
    (source, v.normalise i', bid')
  have hfindw := KeyedStore.find_of_added hw.1 (by rw [hkey]; exact hfree')
    (source, v.normalise i', bid')
  rw [Variable.key_blockOf] at hfindv
  rw [hkey] at hfindw
  refine (congrArg₂ (Same m m') hfindv hfindw).mpr ?_
  by_cases hk : (source, v.normalise i', bid') = (source, v.normalise n, bid)
  · rw [if_pos hk, if_pos hk]
    refine .some ⟨?_, i, j, k, x, by simp, by simp, hi, hj⟩
    rw [Variable.dataspace_blockOf]
    exact blockOf_congr h n bid _ _
  · rw [if_neg hk, if_neg hk]
    exact h.blocks i' bid' hi'

/-- The end of an iteration, on the core: blocks of later iterations stay. -/
theorem Matches.next (h : Matches source n m m' v d w) :
    Matches source (n + 1) m m' v d w :=
  { h with blocks := fun i bid hi => h.blocks i bid fun htv => (hi htv).trans' (by omega) }

theorem Matches.collect (h : Matches source (n + 1) m m' v d w) {vs : Variables (ℕ × ℕ)} {id : ℤ}
    (hw : vs id = some w) :
    ∃ w', Iteration.collect vs n id = some w' ∧ Matches source (n + 1) m m' v d w' := by
  unfold Iteration.collect
  rw [hw, Option.map_some]
  by_cases htv : w.timeVarying
  · rw [if_pos htv]
    unfold Variable.clearUpToIteration
    split_ifs with hbad
    · exact ⟨w, rfl, h⟩
    · refine ⟨_, rfl, { h with
        normalised := ⟨h.normalised.1, fun he b hb =>
          h.normalised.2 he b (KeyedStore.mem_filter.mp hb).1⟩
        blocks := fun i bid hi => ?_ }⟩
      have htv' : v.timeVarying = true := h.timeVarying.2.symm.trans htv
      have hsame := h.blocks i bid hi
      have hlater : n < v.normalise i := by
        rw [Variable.normalise, htv', if_pos rfl]
        have := hi htv'
        omega
      rw [Option.getD_some, KeyedStore.find_filter]
      cases hfind : w.blocks.find (source, v.normalise i, bid) with
      | none =>
        rw [hfind] at hsame
        exact hsame
      | some b =>
        have hb : b.iteration = v.normalise i :=
          congrArg (fun k => k.2.1) (KeyedStore.find_eq_some.mp hfind).2
        have hkeep : ¬ (-1 ≤ b.iteration ∧ b.iteration ≤ n) := fun hle =>
          absurd (hb ▸ hle.2) hlater.not_ge
        rw [hfind] at hsame
        rw [Option.filter_some, if_pos (decide_eq_true hkeep)]
        exact hsame
  · rw [if_neg htv]
    exact ⟨w, rfl, h⟩

/-! ## What the calls do to the clients and the core -/

/-- The states of the two clients and of a core that has handled all messages. -/
structure Agrees (a : Alone) (nd : Node) (core : Core) : Prop where
  source : nd.client.source = a.client.source
  iteration : nd.client.iteration = a.client.iteration
  coreIteration : core.iteration = a.client.iteration
  numDomains : nd.client.numDomains = a.client.numDomains
  noError : nd.client.errorOccured = false
  vars : ∀ id, (a.client.vars id = none ∧ nd.client.vars id = none ∧ core.vars id = none) ∨
    ∃ v d w, a.client.vars id = some v ∧ nd.client.vars id = some d ∧ core.vars id = some w ∧
      Matches a.client.source a.client.iteration a.memory nd.memory v d w
  updates : List.Forall₂ (fun u u' => ∀ id bid, Same a.memory nd.memory (u id bid) (u' id bid))
    a.updates core.updates

/-- What the core will be once it has handled these messages. -/
def serve (gc : Bool) (source : ℤ) : Core → List (Operation (Option ℕ) Empty) → Option Core
  | core, [] => some core
  | core, m :: rest => (core.handle gc source m).bind fun core => serve gc source core rest

theorem serve_append (gc : Bool) (source : ℤ) (core : Core)
    (ms ms' : List (Operation (Option ℕ) Empty)) :
    serve gc source core (ms ++ ms') =
      (serve gc source core ms).bind fun core => serve gc source core ms' := by
  induction ms generalizing core with
  | nil => rfl
  | cons m ms ih => cases h : core.handle gc source m <;> simp [serve, h, ih]

theorem serve_one {gc : Bool} {source : ℤ} {core core' : Core} {op : Operation (Option ℕ) Empty}
    (h : core.handle gc source op = some core') : serve gc source core [op] = some core' := by
  rw [serve, h]
  rfl

variable {a : Alone} {nd : Node} {core : Core}

/-- The two clients find the same variables. -/
theorem Agrees.search (h : Agrees a nd core) (id block : ℤ) :
    (∃ e, a.client.search id block = .error e ∧ nd.client.search id block = .error e) ∨
      ∃ v d w, a.client.search id block = .ok v ∧ nd.client.search id block = .ok d ∧
        core.vars id = some w ∧
        Matches a.client.source a.client.iteration a.memory nd.memory v d w := by
  unfold Client.search
  rw [h.numDomains]
  rcases h.vars id with ⟨ha, hn, -⟩ | ⟨v, d, w, ha, hn, hw, hm⟩
  · exact .inl ⟨_, by rw [ha], by rw [hn]⟩
  · rw [ha, hn]
    by_cases hvalid : block < 0 ∨ a.client.numDomains ≤ block
    · exact .inl ⟨_, if_pos hvalid, if_pos hvalid⟩
    · exact .inr ⟨v, d, w, if_neg hvalid, if_neg hvalid, hw, hm⟩

/-- Setting the variables of one id, after which the memories may have grown. -/
theorem Agrees.set (h : Agrees a nd core) {id : ℤ} {v d w : Variable (ℕ × ℕ)} {a' : Alone}
    {nd' : Node} {core' : Core} (hm : a.memory <+: a'.memory) (hm' : nd.memory <+: nd'.memory)
    (hmatch : Matches a.client.source a.client.iteration a'.memory nd'.memory v d w)
    (ha : a'.client.vars = a.client.vars.set id v) (hnd : nd'.client.vars = nd.client.vars.set id d)
    (hcore : core'.vars = core.vars.set id w)
    (hakeep : a'.client.source = a.client.source ∧ a'.client.iteration = a.client.iteration ∧
      a'.client.numDomains = a.client.numDomains ∧ a'.updates = a.updates)
    (hnkeep : nd'.client.source = nd.client.source ∧ nd'.client.iteration = nd.client.iteration ∧
      nd'.client.numDomains = nd.client.numDomains ∧ nd'.client.errorOccured = false)
    (hckeep : core'.iteration = core.iteration ∧ core'.updates = core.updates) :
    Agrees a' nd' core' := by
  refine ⟨?_, ?_, ?_, ?_, hnkeep.2.2.2, fun id' => ?_, ?_⟩
  · rw [hnkeep.1, hakeep.1, h.source]
  · rw [hnkeep.2.1, hakeep.2.1, h.iteration]
  · rw [hckeep.1, hakeep.2.1, h.coreIteration]
  · rw [hnkeep.2.2.1, hakeep.2.2.1, h.numDomains]
  · rw [ha, hnd, hcore, hakeep.1, hakeep.2.1]
    by_cases hid : id' = id
    · subst hid
      exact .inr ⟨v, d, w, Variables.set_same .., Variables.set_same .., Variables.set_same .., hmatch⟩
    · rw [Variables.set_of_ne hid, Variables.set_of_ne hid, Variables.set_of_ne hid]
      rcases h.vars id' with hnone | ⟨v', d', w', hv', hd', hw', hmatch'⟩
      · exact .inl hnone
      · exact .inr ⟨v', d', w', hv', hd', hw', hmatch'.grow hm hm'⟩
  · rw [hakeep.2.2.2, hckeep.2]
    exact h.updates.imp fun u u' hu id bid => (hu id bid).grow hm hm'

theorem set_self {vs : Variables (ℕ × ℕ)} {id : ℤ} {v : Variable (ℕ × ℕ)} (h : vs id = some v) :
    vs.set id v = vs := by
  rw [Variables.set, ← h, Function.update_eq_self]

theorem Agrees.setPosition (h : Agrees a nd core) (id block : ℤ) (p : List ℤ) :
    Agrees (a.request (.setPosition id block p)) (nd.request (.setPosition id block p)) core := by
  simp only [Alone.request, Node.request, Client.setPosition]
  rcases h.search id block with ⟨e, ha, hn⟩ | ⟨v, d, w, ha, hn, hw, hm⟩
  · rw [ha, hn]
    exact h
  · rw [ha, hn]
    have hlayout : d.layout.dimensions = v.layout.dimensions := by rw [hm.layout.1]
    refine h.set List.prefix_rfl List.prefix_rfl (hm.setPosition block (p.take v.layout.dimensions))
      rfl ?_ (set_self hw).symm ⟨rfl, rfl, rfl, rfl⟩ ⟨rfl, rfl, rfl, h.noError⟩ ⟨rfl, rfl⟩
    simp only [hlayout]

theorem Agrees.endIteration (h : Agrees a nd core) (gc : Bool) :
    ∃ core', core.handle gc nd.client.source (.endIteration nd.client.errorOccured) = some core' ∧
      Agrees (a.request .endIteration) (nd.request .endIteration) core' := by
  rw [h.noError]
  refine ⟨_, rfl, h.source, ?_, ?_, h.numDomains, rfl, fun id => ?_, ?_⟩
  · simp [Alone.request, Node.request, Client.startNextIteration, h.iteration]
  · simp [Alone.request, Client.startNextIteration, h.coreIteration]
  · simp only [Alone.request, Node.request, Client.startNextIteration, h.coreIteration]
    rcases h.vars id with ⟨hv, hd, hw⟩ | ⟨v, d, w, hv, hd, hw, hm⟩
    · refine .inl ⟨hv, hd, ?_⟩
      cases gc <;> simp [Iteration.collect, hw]
    · cases gc with
      | false => exact .inr ⟨v, d, w, hv, hd, hw, hm.next⟩
      | true =>
        obtain ⟨w', hw', hm'⟩ := hm.next.collect hw
        exact .inr ⟨v, d, w', hv, hd, hw', hm'⟩
  · simp only [Alone.request, Node.request, Bool.false_eq_true, if_false]
    refine List.rel_append h.updates (.cons (fun id bid => ?_) .nil)
    rw [h.source, h.coreIteration]
    unfold update
    rcases h.vars id with ⟨hv, -, hw⟩ | ⟨v, d, w, hv, -, hw, hm⟩
    · rw [hv, hw]
      exact .none
    · rw [hv, hw]
      exact hm.found bid

/-! ## `Write` -/

theorem heap_allocate (next size : ℕ) :
    (heap next).client.allocate size = some (some (next, size)) := by
  simp [Segment.client, Segment.plain, heap]

section Write

variable {A : Type*} {c : Client A} {id block : ℤ} {buffer : Buffer Unit A} {u : Variable A}

theorem standaloneWrite_taken (hs : c.search id block = .ok u)
    (htaken : (u.getBlock c.source c.iteration block).isSome) :
    c.standaloneWrite id block (some buffer) =
      ({ c with vars := c.vars.set id u, errorOccured := true }, .ALLOCATION_ERROR, none) := by
  rw [Client.standaloneWrite, hs]
  simp only [u.allocate_eq, if_pos htaken]

theorem standaloneWrite_free {ds : A} (hs : c.search id block = .ok u)
    (hfree : u.getBlock c.source c.iteration block = none)
    (hds : buffer.allocate u.layout.requiredMemory = some (some ds)) :
    c.standaloneWrite id block (some buffer) =
      ({ c with vars := c.vars.set id { u with blocks :=
          (u.blocks.insert (u.blockOf c.source c.iteration block (some ds))).1 } }, .OK, some ds) := by
  have hnot : ¬ (u.getBlock c.source c.iteration block).isSome := by simp [hfree]
  rw [Client.standaloneWrite, hs]
  simp only [u.allocate_eq, if_neg hnot, hds, Variable.dataspace_blockOf]

/-- A client with a server does not keep the block. -/
theorem write_free {ds : A} (hs : c.search id block = .ok u) (hempty : ∀ b, b ∉ u.blocks)
    (hds : buffer.allocate u.layout.requiredMemory = some (some ds)) :
    ∃ u', u'.timeVarying = u.timeVarying ∧ u'.layout = u.layout ∧ u'.positions = u.positions ∧
      (∀ b, b ∉ u'.blocks) ∧ c.write id block (some buffer) =
        ({ c with vars := c.vars.set id u' }, .OK, some
          { id := id, source := c.source, iteration := c.iteration, block := block,
            dims := dimsOf u.layout.dimensions (u.blockOf c.source c.iteration block (some ds)),
            handle := some ds }) := by
  have hfind : ∀ key, u.blocks.find key = none := fun key =>
    KeyedStore.find_eq_none.mpr fun b hb => absurd hb (hempty b)
  have hnot : ¬ (u.getBlock c.source c.iteration block).isSome := by
    simp [Variable.getBlock, hfind]
  set b := u.blockOf c.source c.iteration block (some ds) with hb
  set stored : Variable A := { u with blocks := (u.blocks.insert b).1 } with hstored
  have hshrinks := stored.detachBlock_shrinks (some b)
  refine ⟨(stored.detachBlock (some b)).1, hshrinks.1, stored.layout_detachBlock _, ?_,
    fun b' hb' => ?_, ?_⟩
  · unfold Variable.detachBlock
    simp only
    split <;> rfl
  · have hmem := (KeyedStore.insert_of_find_none (hfind b.key)).1
    have hthere : (stored.blocks.find b.key).isSome := by
      rw [Option.isSome_iff_exists]
      exact ⟨b, KeyedStore.find_eq_some.mpr ⟨(hmem b).mpr (.inr rfl), rfl⟩⟩
    simp only [Variable.detachBlock, if_pos hthere, KeyedStore.mem_erase] at hb'
    rcases (hmem b').mp hb'.1 with hold | rfl
    · exact hempty b' hold
    · exact hb'.2 rfl
  · rw [Client.write, hs]
    simp only [u.allocate_eq, if_neg hnot, hds, ← hb, ← hstored]
    rw [hb, Variable.dataspace_blockOf]

end Write

/-- What the core keeps of a message: its block, unless there is one of its key. -/
def filed (w : Variable (ℕ × ℕ)) (source i bid : ℤ) (b : Block (ℕ × ℕ)) : Variable (ℕ × ℕ) :=
  if (w.getBlock source i bid).isSome then w else { w with blocks := (w.blocks.insert b).1 }

theorem handle_write (gc : Bool) (block i : ℤ) {core : Core} {id : ℤ} {k : ℕ}
    (hm : Matches source n m m' v d w) (hw : core.vars id = some w) {b : Block (ℕ × ℕ)}
    (hb : b = d.blockOf source i block (some (k, d.layout.requiredMemory))) :
    core.handle gc source (.write ((heap k).encode
      { id := id, source := source, iteration := i, block := block,
        dims := dimsOf d.layout.dimensions b, handle := some (k, d.layout.requiredMemory) })) =
      some { core with vars := core.vars.set id (filed w source i block b) } := by
  have hlayout : w.layout = d.layout := hm.layout.2.trans hm.layout.1.symm
  have hspans : b.Spans w.layout := by
    rw [hb, hlayout]
    exact d.spans_blockOf source i block _
  have hglobal : ∀ x ∈ w.layout.along, x.global < 2 ^ 64 := hm.layout.2 ▸ hm.global_lt
  have hkey : b.key = (source, w.normalise i, block) := by
    rw [hb, Variable.key_blockOf, (hm.normalise i).1, (hm.normalise i).2]
  have hlink : (heap 0).server.link (some k) w.layout.requiredMemory =
      some (k, d.layout.requiredMemory) := by
    rw [hlayout]
    exact (heap 0).server_link k d.layout.requiredMemory
  have hret := retrieveBounds_dimsOf hspans hglobal hkey (by rw [hb]; exact d.readOnly_blockOf ..)
    (by rw [hb]; exact d.dataspace_blockOf ..) hlink
  have hencode : (heap k).encode
      { id := id, source := source, iteration := i, block := block,
        dims := dimsOf d.layout.dimensions b, handle := some (k, d.layout.requiredMemory) } =
      { id := id, source := source, iteration := i, block := block,
        dims := dimsOf w.layout.dimensions b, handle := some k } := by
    rw [hlayout]
    rfl
  rw [hencode]
  simp only [Core.handle, Variables.onWrite, Variables.retrieve, hw, hret, filed]
  split_ifs <;> rfl

/-- What a `Write` returns in the two modes, and whether the block was there. -/
def codesOf (c : Client (ℕ × ℕ)) (id block : ℤ) : Status × Status :=
  match c.search id block with
  | .error e => (e, e)
  | .ok v =>
    (if (v.getBlock c.source c.iteration block).isSome then .ALLOCATION_ERROR else .OK, .OK)

theorem copy_prefix (memory : Memory) (data : List UInt8) (ds : Option (ℕ × ℕ)) :
    memory <+: copy memory data ds := by
  cases ds with
  | none => exact List.prefix_rfl
  | some ds => exact List.prefix_append _ _

/-- A block that is written again is refused by the core as it is by the client without a
server, but the client that has one does not know. -/
theorem Agrees.write (h : Agrees a nd core) (gc : Bool) (id block : ℤ) (data : List UInt8) :
    (∃ core' ms, (nd.request (.write id block data)).queue = nd.queue ++ ms ∧
      serve gc nd.client.source core ms = some core' ∧
        Agrees (a.request (.write id block data)) (nd.request (.write id block data)) core') ∧
      (a.request (.write id block data)).codes = a.codes ++ [(codesOf a.client id block).1] ∧
      (nd.request (.write id block data)).codes = nd.codes ++ [(codesOf a.client id block).2] := by
  simp only [Alone.request, Node.request, codesOf]
  rcases h.search id block with ⟨e, ha, hn⟩ | ⟨v, d, w, ha, hn, hw, hm⟩
  · have hwa : a.client.standaloneWrite id block (some (heap a.memory.length).client) =
        (a.client, e, none) := by rw [Client.standaloneWrite, ha]
    have hwn : nd.client.write id block (some (heap nd.memory.length).client) =
        (nd.client, e, none) := by rw [Client.write, hn]
    rw [hwa, hwn, ha]
    exact ⟨⟨core, [], rfl, rfl, h.source, h.iteration, h.coreIteration, h.numDomains, h.noError,
      h.vars, h.updates⟩, rfl, rfl⟩
  · obtain ⟨d', htv, hlayout, hpos, hempty, hwn⟩ :=
      write_free hn hm.empty (heap_allocate nd.memory.length _)
    rw [h.source, h.iteration] at hwn
    have hhandle := handle_write gc block a.client.iteration (k := nd.memory.length) hm hw rfl
    have hm' : ∀ {k k' : Memory}, a.memory <+: k → nd.memory <+: k' →
        Matches a.client.source a.client.iteration k k' v d' w := fun hk hk' =>
      { hm.grow hk hk' with
        timeVarying := ⟨htv.trans hm.timeVarying.1, hm.timeVarying.2⟩
        layout := ⟨hlayout.trans hm.layout.1, hm.layout.2⟩
        positions := hpos.trans hm.positions
        empty := hempty }
    have hsame := (hm.blocks a.client.iteration block fun _ => le_rfl).isSome_iff
    have hsize : d.layout.requiredMemory = v.layout.requiredMemory := by rw [hm.layout.1]
    rw [hwn, ha]
    simp only [Option.map_some, Option.toList_some, Option.bind_some]
    by_cases htaken : (v.getBlock a.client.source a.client.iteration block).isSome
    · have hthere : (w.getBlock a.client.source a.client.iteration block).isSome := by
        rw [Variable.getBlock, (hm.normalise _).2, ← hsame]
        exact htaken
      rw [standaloneWrite_taken ha htaken]
      rw [filed, if_pos hthere] at hhandle
      refine ⟨⟨_, [_], rfl, (congrArg (serve gc · core _) h.source).trans (serve_one hhandle), ?_⟩, ?_, trivial⟩
      · have hcopy := copy_prefix nd.memory data (some (nd.memory.length, d.layout.requiredMemory))
        exact h.set List.prefix_rfl hcopy (hm' List.prefix_rfl hcopy) rfl rfl rfl
          ⟨rfl, rfl, rfl, rfl⟩ ⟨h.source.symm, h.iteration.symm, rfl, h.noError⟩ ⟨rfl, rfl⟩
      · rw [if_pos htaken]
    · have hnone := Option.not_isSome_iff_eq_none.mp htaken
      have hthere : ¬ (w.getBlock a.client.source a.client.iteration block).isSome := by
        rw [Variable.getBlock, (hm.normalise _).2, ← hsame]
        exact htaken
      rw [standaloneWrite_free ha hnone (heap_allocate a.memory.length _)]
      rw [filed, if_neg hthere] at hhandle
      refine ⟨⟨_, [_], rfl, (congrArg (serve gc · core _) h.source).trans (serve_one hhandle), ?_⟩, ?_, trivial⟩
      · have hgrown := hm.grow (List.prefix_append a.memory [data.take v.layout.requiredMemory])
          (List.prefix_append nd.memory [data.take d.layout.requiredMemory])
        refine h.set (List.prefix_append ..) (List.prefix_append ..)
          (hgrown.write (x := data.take v.layout.requiredMemory) hnone ?_ ?_ htv hlayout hpos hempty)
          rfl rfl (by rw [hsize]) ⟨rfl, rfl, rfl, rfl⟩ ⟨h.source.symm, h.iteration.symm, rfl, h.noError⟩
          ⟨rfl, rfl⟩
        · simp
        · simp [hsize]
      · rw [if_neg htaken]

/-! ## Runs -/

theorem source_request (nd : Node) (r : Request) :
    (nd.request r).client.source = nd.client.source := by
  cases r with
  | setPosition id block p =>
    exact (Client.setPosition_keeps (fun _ => none) nd.client id block p).source
  | write id block data =>
    have hkeeps : Client.Keeps (fun _ => none) nd.client
        (nd.client.write id block (some (heap nd.memory.length).client)).1 :=
      (Client.write_spec rfl).1
    exact hkeeps.source
  | endIteration => rfl

theorem Agrees.request (h : Agrees a nd core) (gc : Bool) (r : Request) :
    ∃ core' ms, (nd.request r).queue = nd.queue ++ ms ∧
      serve gc nd.client.source core ms = some core' ∧ Agrees (a.request r) (nd.request r) core' := by
  cases r with
  | setPosition id block p =>
    exact ⟨core, [], (List.append_nil _).symm, rfl, h.setPosition id block p⟩
  | write id block data => exact (h.write gc id block data).1
  | endIteration =>
    obtain ⟨core', hhandle, hagrees⟩ := h.endIteration gc
    exact ⟨core', [_], rfl, serve_one hhandle, hagrees⟩

theorem codes_of_request {r : Request} (h : (a.request r).codes = (nd.request r).codes) :
    a.codes = nd.codes := by
  cases r with
  | setPosition id block p => exact h
  | write id block data => exact (List.append_inj' h rfl).1
  | endIteration => exact h

/-- Only a block that is written again makes a difference. -/
theorem Agrees.codes_request (h : Agrees a nd core) {r : Request} (hcodes : a.codes = nd.codes) :
    (a.request r).codes = (nd.request r).codes ↔ State.Fresh ⟨a, nd⟩ (.request r) := by
  cases r with
  | setPosition id block p => exact iff_of_true hcodes trivial
  | endIteration => exact iff_of_true hcodes trivial
  | write id block data =>
    obtain ⟨-, ha, hn⟩ := h.write false id block data
    rw [ha, hn, hcodes, List.append_cancel_left_eq, List.singleton_inj]
    simp only [codesOf, State.Fresh]
    cases a.client.search id block with
    | error e => simp
    | ok v => cases hget : v.getBlock a.client.source a.client.iteration block <;> simp [hget]

/-- The core catches up with the client that has no server. -/
def Inv (gc : Bool) (s : State) : Prop :=
  ∃ core, serve gc s.node.client.source s.node.core s.node.queue = some core ∧
    Agrees s.alone s.node core

theorem inv_initial (gc : Bool) (config : ℤ → Option (Bool × Layout)) (source numDomains : ℤ)
    (hglobal : ∀ id x, config id = some x → ∀ d ∈ x.2.along, d.global < 2 ^ 64) :
    Inv gc (State.initial config source numDomains) := by
  refine ⟨_, rfl, rfl, rfl, rfl, rfl, rfl, fun id => ?_, .nil⟩
  simp only [State.initial, Variables.new]
  cases hid : config id with
  | none => exact .inl ⟨rfl, rfl, rfl⟩
  | some x =>
    have hempty : ∀ b, b ∉ (KeyedStore.empty : KeyedStore (Block.key : Block (ℕ × ℕ) → _)) :=
      KeyedStore.notMem_empty
    exact .inr ⟨_, _, _, rfl, rfl, rfl, ⟨rfl, rfl⟩, ⟨rfl, rfl⟩, rfl, hempty,
      ⟨fun _ b hb => absurd hb (hempty b), fun _ b hb => absurd hb (hempty b)⟩,
      hglobal id x hid, fun i bid _ => .none⟩

theorem inv_step {gc : Bool} {s s' : State} {act : Action} (h : Inv gc s)
    (hs : s.step gc act = some s') : Inv gc s' := by
  obtain ⟨core, hserve, hagrees⟩ := h
  cases act with
  | request r =>
    obtain rfl := Option.some.inj hs
    obtain ⟨core', ms, hqueue, hms, hagrees'⟩ := hagrees.request gc r
    have hkept : (s.node.request r).core = s.node.core := by cases r <;> rfl
    refine ⟨core', ?_, hagrees'⟩
    simp only
    rw [source_request, hkept, hqueue, serve_append, hserve]
    exact hms
  | handle =>
    obtain ⟨node, hnode, rfl⟩ := Option.map_eq_some_iff.mp hs
    unfold Node.handle at hnode
    cases hqueue : s.node.queue with
    | nil =>
      rw [hqueue] at hnode
      exact absurd hnode.symm (Option.some_ne_none _)
    | cons m rest =>
      rw [hqueue] at hnode hserve
      obtain ⟨core₁, hhandle, rfl⟩ := Option.map_eq_some_iff.mp hnode
      obtain ⟨core₂, hhandle₂, hrest⟩ := Option.bind_eq_some_iff.mp hserve
      obtain rfl := Option.some.inj (hhandle.symm.trans hhandle₂)
      exact ⟨core, hrest, { hagrees with }⟩

theorem isPrefix_handle {gc : Bool} {source : ℤ} {op : Operation (Option ℕ) Empty} {core' : Core}
    (h : core.handle gc source op = some core') : core.updates <+: core'.updates := by
  cases op with
  | endIteration errors =>
    obtain rfl := Option.some.inj h
    cases errors with
    | false => exact List.prefix_append _ _
    | true => exact List.prefix_rfl
  | write wr =>
    obtain ⟨x, -, rfl⟩ := Option.map_eq_some_iff.mp h
    exact List.prefix_rfl
  | _ =>
    obtain rfl := Option.some.inj h
    exact List.prefix_rfl

theorem isPrefix_serve {gc : Bool} {source : ℤ} {ms : List (Operation (Option ℕ) Empty)}
    {core core' : Core} (h : serve gc source core ms = some core') :
    core.updates <+: core'.updates := by
  induction ms generalizing core with
  | nil =>
    obtain rfl := Option.some.inj h
    exact List.prefix_rfl
  | cons m ms ih =>
    obtain ⟨core₁, hhandle, hrest⟩ := Option.bind_eq_some_iff.mp h
    exact (isPrefix_handle hhandle).trans (ih hrest)

theorem Agrees.outputs (h : Agrees a nd core) :
    outputs nd.memory core.updates = outputs a.memory a.updates := by
  have hsame : List.Forall₂ (· = ·) (Standalone.outputs a.memory a.updates)
      (Standalone.outputs nd.memory core.updates) := by
    unfold Standalone.outputs
    rw [List.forall₂_map_left_iff, List.forall₂_map_right_iff]
    exact h.updates.imp fun u u' hu => funext₂ fun id bid => (hu id bid).map_contents
  rw [List.forall₂_eq_eq_eq] at hsame
  exact hsame.symm

/-- Each update of the core has found what that of the client without a server has found, and
the core misses none once it has handled the messages in flight. -/
def State.UpdatesAgree (s : State) : Prop :=
  outputs s.node.memory s.node.core.updates <+: outputs s.alone.memory s.alone.updates ∧
    (s.node.queue = [] →
      outputs s.node.memory s.node.core.updates = outputs s.alone.memory s.alone.updates)

theorem Inv.updatesAgree {gc : Bool} {s : State} (h : Inv gc s) : s.UpdatesAgree := by
  obtain ⟨core, hserve, hagrees⟩ := h
  constructor
  · rw [← hagrees.outputs]
    exact (isPrefix_serve hserve).map _
  · intro hqueue
    rw [hqueue] at hserve
    obtain rfl := Option.some.inj hserve
    exact hagrees.outputs

theorem codes_handle {gc : Bool} {nd nd' : Node} (h : nd.handle gc = some nd') :
    nd'.codes = nd.codes := by
  unfold Node.handle at h
  split at h
  · exact absurd h.symm (Option.some_ne_none _)
  · obtain ⟨core, -, rfl⟩ := Option.map_eq_some_iff.mp h
    rfl

theorem codes_of_step {gc : Bool} {s s' : State} {act : Action} (hs : s.step gc act = some s')
    (h : s'.alone.codes = s'.node.codes) : s.alone.codes = s.node.codes := by
  cases act with
  | request r =>
    obtain rfl := Option.some.inj hs
    exact codes_of_request h
  | handle =>
    obtain ⟨node, hnode, rfl⟩ := Option.map_eq_some_iff.mp hs
    exact h.trans (codes_handle hnode)

theorem Inv.codes_step {gc : Bool} {s s' : State} {act : Action} (h : Inv gc s)
    (hcodes : s.alone.codes = s.node.codes) (hs : s.step gc act = some s') :
    s'.alone.codes = s'.node.codes ↔ s.Fresh act := by
  cases act with
  | request r =>
    obtain rfl := Option.some.inj hs
    obtain ⟨core, -, hagrees⟩ := h
    exact hagrees.codes_request hcodes
  | handle =>
    obtain ⟨node, hnode, rfl⟩ := Option.map_eq_some_iff.mp hs
    exact iff_of_true (hcodes.trans (codes_handle hnode).symm) trivial

/-- One variable of two cells, in one domain. -/
def pairConfig (id : ℤ) : Option (Bool × Layout) :=
  if id = 0 then some (true, ⟨1, [⟨2, 2, (0, 0)⟩]⟩) else none

end Damaris.Standalone
