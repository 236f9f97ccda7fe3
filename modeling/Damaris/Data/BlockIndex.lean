import Mathlib.Tactic
import Damaris.Lib.StepSystem
import Damaris.Data.Variable

/-!
# The block index invariant

Any sequence of calls on one variable: what the index looks like afterwards,
what a refused call leaves behind, and which blocks each `Clear` takes away.
-/
namespace Damaris.Data

/-- The calls on a variable that touch its index, each with the buffer it finds. -/
inductive Call (H D : Type*)
  | setPosition (bid : ℤ) (p : List ℤ)
  | allocate (buffer : Option (Buffer H D)) (source iteration bid : ℤ)
  | allocateFixedSize (buffer : Option (Buffer H D)) (source iteration bid : ℤ) (bounds : Bounds)
  | allocateAligned (buffer : Option (Buffer H D)) (source iteration bid : ℤ)
  | retrieve (buffer : Option (Buffer H D)) (source iteration bid : ℤ) (h : H) (size : ℕ)
  | retrieveBounds (buffer : Option (Buffer H D)) (source iteration bid : ℤ) (bounds : Bounds) (h : H)
  | attachBlock (block : Option (Block D))
  | detachBlock (block : Option (Block D))
  | clearAll
  | clearIteration (iteration : ℤ)
  | clearUpToIteration (iteration : ℤ)
  | clearSource (source : ℤ)
  | clearId (id : ℤ)

/-- What a call returns. -/
inductive Answer (D : Type*)
  | block (b : Option (Block D))
  | flag (b : Bool)
  | done

namespace Answer

variable {D : Type*}

/-- A null pointer or `false`. -/
def Refuses : Answer D → Prop
  | .block b => b = none
  | .flag b => b = false
  | .done => False

end Answer

namespace Call

variable {H D : Type*}

/-- The blocks a `Clear` names, by its documentation. -/
def names : Call H D → Option (Block D → Prop)
  | .clearAll => some fun _ => True
  | .clearIteration iteration => some fun b => b.iteration = iteration
  | .clearUpToIteration iteration => some fun b => b.iteration ≤ iteration
  | .clearSource source => some fun b => b.source = source
  | .clearId id => some fun b => b.id = id
  | _ => none

end Call

namespace Variable

variable {H D : Type*}

/-- The call's effect and answer; `none` where the source's behaviour is undefined. -/
def call (v : Variable D) : Call H D → Option (Variable D × Answer D)
  | .setPosition bid p => some ((v.setPosition bid p).map id .flag)
  | .allocate buffer s i bid => some ((v.allocate buffer s i bid).map id .block)
  | .allocateFixedSize buffer s i bid bounds =>
    (v.allocateFixedSize buffer s i bid bounds).map (Prod.map id .block)
  | .allocateAligned buffer s i bid => some ((v.allocateAligned buffer s i bid).map id .block)
  | .retrieve buffer s i bid h size => some ((v.retrieve buffer s i bid h size).map id .block)
  | .retrieveBounds buffer s i bid bounds h =>
    (v.retrieveBounds buffer s i bid bounds h).map (Prod.map id .block)
  | .attachBlock b => some ((v.attachBlock b).map id .flag)
  | .detachBlock b => some ((v.detachBlock b).map id .flag)
  | .clearAll => some (v.clearAll, .done)
  | .clearIteration i => some (v.clearIteration i, .done)
  | .clearUpToIteration i => (v.clearUpToIteration i).map fun v' => (v', .done)
  | .clearSource s => some (v.clearSource s, .done)
  | .clearId i => some (v.clearId i, .done)

def step (v : Variable D) (c : Call H D) : Option (Variable D) := (v.call c).map Prod.fst

/-- The index invariant, as a reader of the class would state it. -/
structure Indexed (v : Variable D) : Prop where
  unique : ∀ b ∈ v.blocks, ∀ c ∈ v.blocks,
    b.source = c.source → b.iteration = c.iteration → b.id = c.id → b = c
  zero : v.timeVarying = false → ∀ b ∈ v.blocks, b.iteration = 0
  lookup : ∀ s i bid b, v.getBlock s i bid = some b ↔
    b ∈ v.blocks ∧ b.source = s ∧ b.iteration = v.normalise i ∧ b.id = bid

/-- The part of it that the container does not give by itself. -/
def Normalised (v : Variable D) : Prop :=
  v.timeVarying = false → ∀ b ∈ v.blocks, b.iteration = 0

theorem indexed_iff {v : Variable D} : v.Indexed ↔ v.Normalised := by
  constructor
  · exact Indexed.zero
  · intro h
    refine ⟨fun b hb c hc hs hi hid => ?_, h, fun s i bid b => ?_⟩
    · refine KeyedStore.eq_of_key_eq hb hc ?_
      rw [Block.key, hs, hi, hid, Block.key]
    · rw [getBlock, KeyedStore.find_eq_some]
      simp only [Block.key, Prod.mk.injEq]

/-! ## One specification for the calls that add a block -/

/-- A call with the given key either refuses and changes nothing, or files a
block under the key, which was free. -/
structure Adds (v : Variable D) (key : ℤ × ℤ × ℤ) (v' : Variable D) (r : Option (Block D)) :
    Prop where
  timeVarying : v'.timeVarying = v.timeVarying
  layout : v'.layout = v.layout
  positions : v'.positions = v.positions
  refused : r = none → v' = v
  free : r ≠ none → v.blocks.find key = none
  filed : ∀ b, r = some b → b.key = key
  added : ∀ b, r = some b → ∀ c, c ∈ v'.blocks ↔ c ∈ v.blocks ∨ c = b

theorem adds_refused (v : Variable D) (key : ℤ × ℤ × ℤ) : v.Adds key v none :=
  ⟨rfl, rfl, rfl, fun _ => rfl, fun h => absurd rfl h, nofun, nofun⟩

theorem key_adopt (v : Variable D) (b : Block D) :
    (v.adopt b).key = (b.source, v.normalise b.iteration, b.id) := rfl

theorem normalise_normalise (v : Variable D) (i : ℤ) :
    v.normalise (v.normalise i) = v.normalise i := by
  unfold normalise
  split <;> rfl

/-- Only whether a variable varies decides under which iteration its blocks are filed. -/
theorem normalise_congr {A : Type*} {v : Variable D} {w : Variable A}
    (h : w.timeVarying = v.timeVarying) (i : ℤ) : w.normalise i = v.normalise i := by
  rw [normalise, h, normalise]

@[simp] theorem key_place (v : Variable D) (b : Block D) : (v.place b).key = b.key := by
  unfold place
  split <;> simp

theorem attachBlock_some {v : Variable D} {b : Block D}
    (h : v.blocks.find (v.adopt b).key = none) :
    v.Adds (v.adopt b).key (v.attachBlock (some b)).1 (some (v.adopt b)) := by
  refine ⟨rfl, rfl, rfl, nofun, fun _ => h, fun c hc => by rw [Option.some.inj hc], fun c hc => ?_⟩
  obtain rfl := Option.some.inj hc
  exact (KeyedStore.insert_of_find_none h).1

theorem Adds.store {v v' : Variable D} {key : ℤ × ℤ × ℤ} {b b' : Block D}
    (h : v.Adds key v' (some b)) (hkey : b'.key = b.key) : v.Adds key (v'.store b') (some b') := by
  have hb := h.added b rfl
  have hfree := KeyedStore.find_eq_none.mp (h.free nofun)
  have hk := h.filed b rfl
  refine ⟨h.timeVarying, h.layout, h.positions, nofun, fun _ => h.free nofun,
    fun c hc => ?_, fun c hc x => ?_⟩
  · obtain rfl := Option.some.inj hc
    exact hkey.trans hk
  · obtain rfl := Option.some.inj hc
    rw [Variable.store, KeyedStore.mem_replace]
    constructor
    · rintro (⟨rfl, -⟩ | ⟨hx, hne⟩)
      · exact .inr rfl
      · rcases (hb x).mp hx with hx | rfl
        · exact .inl hx
        · exact absurd hkey.symm hne
    · rintro (hx | rfl)
      · exact .inr ⟨(hb x).mpr (.inl hx), fun he => hfree x hx (he.trans (hkey.trans hk))⟩
      · exact .inl ⟨rfl, b, (hb b).mpr (.inr rfl), hkey.symm⟩

theorem allocateWith_adds (v : Variable D) (request : Option (ℕ → Option (Option D))) (s i bid : ℤ)
    {fill : Block D → Block D} (size : Block D → ℕ) {finish : Block D → Block D}
    (hfill : ∀ b, (fill b).key = b.key) (hfinish : ∀ b, (finish b).key = b.key) :
    v.Adds (s, v.normalise i, bid) (v.allocateWith request s i bid fill size finish).1
      (v.allocateWith request s i bid fill size finish).2 := by
  unfold allocateWith
  cases request with
  | none => exact adds_refused v _
  | some allocate =>
    simp only
    split_ifs with hget
    · exact adds_refused v _
    · cases hds : allocate (size (fill (Block.new s (v.normalise i) bid v.layout))) with
      | none => exact adds_refused v _
      | some ds =>
        simp only
        set b := finish ((fill (Block.new s (v.normalise i) bid v.layout)).setDataSpace ds) with hb
        have hkey : b.key = (s, v.normalise i, bid) := by
          rw [hb, hfinish, Block.key_setDataSpace, hfill, Block.key_new]
        have hadopt : (v.adopt b).key = (s, v.normalise i, bid) := by
          rw [Block.key, Prod.mk.injEq, Prod.mk.injEq] at hkey
          obtain ⟨h1, h2, h3⟩ := hkey
          rw [key_adopt, h1, h2, h3, normalise_normalise]
        have hfree : v.blocks.find (s, v.normalise i, bid) = none := by
          have hnone := Option.not_isSome_iff_eq_none.mp hget
          rwa [getBlock, normalise_normalise] at hnone
        rw [← hadopt] at hfree ⊢
        exact attachBlock_some hfree

theorem allocate_adds (v : Variable D) (buffer : Option (Buffer H D)) (s i bid : ℤ) :
    v.Adds (s, v.normalise i, bid) (v.allocate buffer s i bid).1 (v.allocate buffer s i bid).2 :=
  v.allocateWith_adds _ s i bid _ (fun _ => rfl) v.key_place

theorem allocateAligned_adds (v : Variable D) (buffer : Option (Buffer H D)) (s i bid : ℤ) :
    v.Adds (s, v.normalise i, bid) (v.allocateAligned buffer s i bid).1
      (v.allocateAligned buffer s i bid).2 :=
  v.allocateWith_adds _ s i bid _ (fun _ => rfl) v.key_place

theorem allocateFixedSize_adds {v : Variable D} {x : Variable D × Option (Block D)}
    {buffer : Option (Buffer H D)} {s i bid : ℤ} {bounds : Bounds}
    (hx : v.allocateFixedSize buffer s i bid bounds = some x) :
    v.Adds (s, v.normalise i, bid) x.1 x.2 := by
  unfold allocateFixedSize at hx
  split_ifs at hx
  obtain rfl := Option.some.inj hx
  exact v.allocateWith_adds _ s i bid _ (Block.key_setBounds _ _) fun _ => rfl

theorem retrieve_adds (v : Variable D) (buffer : Option (Buffer H D)) (s i bid : ℤ) (h : H)
    (size : ℕ) : v.Adds (s, v.normalise i, bid) (v.retrieve buffer s i bid h size).1
      (v.retrieve buffer s i bid h size).2 := by
  unfold retrieve
  cases buffer with
  | none => exact adds_refused v _
  | some buffer =>
    simp only
    split_ifs with hget
    · exact adds_refused v _
    · cases hds : buffer.link h size with
      | none => exact adds_refused v _
      | some ds =>
        simp only
        have hfree := Option.not_isSome_iff_eq_none.mp hget
        exact (attachBlock_some (b := (Block.new s i bid v.layout).setDataSpace (some ds)) hfree).store
          (key_place _ _)

theorem retrieveBounds_adds {v : Variable D} {x : Variable D × Option (Block D)}
    {buffer : Option (Buffer H D)} {s i bid : ℤ} {bounds : Bounds} {h : H}
    (hr : v.retrieveBounds buffer s i bid bounds h = some x) :
    v.Adds (s, v.normalise i, bid) x.1 x.2 := by
  unfold retrieveBounds at hr
  have hadds := v.retrieve_adds buffer s i bid h (v.boundsSize bounds)
  by_cases hd : bounds.lbounds.length ≠ v.layout.dimensions ∨
      bounds.ubounds.length ≠ v.layout.dimensions
  · rw [if_pos hd] at hr
    obtain rfl := Option.some.inj hr
    exact adds_refused v _
  · rw [if_neg hd] at hr
    rcases hret : v.retrieve buffer s i bid h (v.boundsSize bounds) with ⟨w, b | b⟩
    · rw [hret] at hr hadds
      obtain rfl := Option.some.inj hr
      exact hadds
    · rw [hret] at hr hadds
      simp only at hr
      split_ifs at hr
      obtain rfl := Option.some.inj hr
      exact hadds.store (Block.key_setBounds _ _ _)

theorem Adds.normalised {v v' : Variable D} {s i bid : ℤ} {r : Option (Block D)}
    (h : v.Adds (s, v.normalise i, bid) v' r) (hv : v.Normalised) : v'.Normalised := by
  cases r with
  | none =>
    rw [h.refused rfl]
    exact hv
  | some b =>
    intro htv c hc
    rw [h.timeVarying] at htv
    rcases (h.added b rfl c).mp hc with hc | rfl
    · exact hv htv c hc
    · have hkey := h.filed c rfl
      have hi : c.iteration = v.normalise i := congrArg (fun k => k.2.1) hkey
      rw [hi, normalise, htv]
      rfl

/-! ## The whole interface -/

/-- A call that only takes blocks away. -/
def Shrinks (v v' : Variable D) : Prop :=
  v'.timeVarying = v.timeVarying ∧ ∀ b ∈ v'.blocks, b ∈ v.blocks

theorem Shrinks.normalised {v v' : Variable D} (h : v.Shrinks v') (hv : v.Normalised) :
    v'.Normalised := fun htv b hb => hv (h.1.symm.trans htv) b (h.2 b hb)

@[simp] theorem layout_detachBlock (v : Variable D) (c : Option (Block D)) :
    (v.detachBlock c).1.layout = v.layout := by
  unfold detachBlock
  cases c with
  | none => rfl
  | some c =>
    simp only
    split <;> rfl

theorem detachBlock_shrinks (v : Variable D) (c : Option (Block D)) :
    v.Shrinks (v.detachBlock c).1 := by
  unfold detachBlock
  cases c with
  | none => exact ⟨rfl, fun _ hb => hb⟩
  | some c =>
    simp only
    split
    · exact ⟨rfl, fun b hb => (KeyedStore.mem_erase.mp hb).1⟩
    · exact ⟨rfl, fun _ hb => hb⟩

theorem detachBlock_refused {v : Variable D} {c : Option (Block D)}
    (h : (v.detachBlock c).2 = false) : (v.detachBlock c).1 = v := by
  cases c with
  | none => rfl
  | some c =>
    by_cases hfind : (v.blocks.find c.key).isSome
    · simp [detachBlock, hfind] at h
    · simp [detachBlock, hfind]

theorem attachBlock_normalised {v : Variable D} (b : Option (Block D)) (hv : v.Normalised) :
    (v.attachBlock b).1.Normalised := by
  cases b with
  | none => exact hv
  | some b =>
    by_cases hfree : v.blocks.find (v.adopt b).key = none
    · have hadds : v.Adds (b.source, v.normalise b.iteration, b.id) (v.attachBlock (some b)).1 _ :=
        attachBlock_some hfree
      exact hadds.normalised hv
    · have hsame : (v.attachBlock (some b)).1 = v := by
        simp [attachBlock, KeyedStore.insert_of_find_some hfree]
      rw [hsame]
      exact hv

theorem attachBlock_refused {v : Variable D} {b : Option (Block D)}
    (h : (v.attachBlock b).2 = false) : (v.attachBlock b).1 = v := by
  cases b with
  | none => rfl
  | some b =>
    have hsame := KeyedStore.insert_refused (x := v.adopt b) (s := v.blocks) h
    simp only [attachBlock, hsame]

/-- Where `ClearUpToIteration` is defined, the blocks it takes are those between
-1 and its argument. -/
theorem mem_clearUpToIteration {v v' : Variable D} {i : ℤ}
    (h : v.clearUpToIteration i = some v') (b : Block D) :
    b ∈ v'.blocks ↔ b ∈ v.blocks ∧ ¬ (-1 ≤ b.iteration ∧ b.iteration ≤ i) := by
  unfold clearUpToIteration at h
  split_ifs at h
  obtain rfl := Option.some.inj h
  rw [KeyedStore.mem_filter, decide_eq_true_iff]

/-- What every call promises: the index invariant before and after, nothing
changed by a refusal, and `Clear` functions that return and take what they name. -/
structure Meets (v : Variable D) (c : Call H D) : Prop where
  before : v.Indexed
  after : ∀ v' a, v.call c = some (v', a) → v'.Indexed
  refused : ∀ v' a, v.call c = some (v', a) → a.Refuses → v'.blocks = v.blocks
  clears : ∀ named, c.names = some named → ∃ v' a, v.call c = some (v', a) ∧
    ∀ b, b ∈ v'.blocks ↔ b ∈ v.blocks ∧ ¬ named b

/-- `ClearUpToIteration` is called when no block lies before iteration -1. -/
def FromMinusOne (v : Variable D) : Call H D → Prop
  | .clearUpToIteration _ => ∀ b ∈ v.blocks, -1 ≤ b.iteration
  | _ => True

theorem answer_inj {β : Type*} {v' : Variable D} {a : Answer D} {x : Variable D × β}
    {f : β → Answer D} (h : some (x.map id f) = some (v', a)) : v' = x.1 ∧ a = f x.2 := by
  obtain ⟨w, y⟩ := x
  obtain ⟨rfl, rfl⟩ := Prod.mk.inj (Option.some.inj h)
  exact ⟨rfl, rfl⟩

/-- Every call keeps the index invariant, and changes nothing when it refuses. -/
theorem call_spec {v v' : Variable D} {c : Call H D} {a : Answer D} (hv : v.Normalised)
    (hc : v.call c = some (v', a)) : v'.Normalised ∧ (a.Refuses → v'.blocks = v.blocks) := by
  have hadds : ∀ {s i bid : ℤ} {r : Option (Block D)}, v.Adds (s, v.normalise i, bid) v' r →
      a = .block r → v'.Normalised ∧ (a.Refuses → v'.blocks = v.blocks) := by
    rintro s i bid r h rfl
    exact ⟨h.normalised hv, fun hr => by rw [h.refused hr]⟩
  have hshrinks : v.Shrinks v' → a = .done →
      v'.Normalised ∧ (a.Refuses → v'.blocks = v.blocks) := by
    rintro h rfl
    exact ⟨h.normalised hv, False.elim⟩
  cases c with
  | setPosition bid p =>
    obtain ⟨rfl, rfl⟩ := answer_inj hc
    have hblocks : (v.setPosition bid p).1.blocks = v.blocks := by
      unfold setPosition
      split <;> rfl
    have htv : (v.setPosition bid p).1.timeVarying = v.timeVarying := by
      unfold setPosition
      split <;> rfl
    refine ⟨fun h b hb => ?_, fun _ => hblocks⟩
    rw [hblocks] at hb
    exact hv (htv.symm.trans h) b hb
  | allocate buffer s i bid =>
    obtain ⟨rfl, rfl⟩ := answer_inj hc
    exact hadds (v.allocate_adds buffer s i bid) rfl
  | allocateFixedSize buffer s i bid bounds =>
    obtain ⟨x, hx, hxa⟩ := Option.map_eq_some_iff.mp hc
    obtain ⟨rfl, rfl⟩ := answer_inj (congrArg some hxa)
    exact hadds (allocateFixedSize_adds hx) rfl
  | allocateAligned buffer s i bid =>
    obtain ⟨rfl, rfl⟩ := answer_inj hc
    exact hadds (v.allocateAligned_adds buffer s i bid) rfl
  | retrieve buffer s i bid h size =>
    obtain ⟨rfl, rfl⟩ := answer_inj hc
    exact hadds (v.retrieve_adds buffer s i bid h size) rfl
  | retrieveBounds buffer s i bid bounds h =>
    obtain ⟨x, hx, hxa⟩ := Option.map_eq_some_iff.mp hc
    obtain ⟨rfl, rfl⟩ := answer_inj (congrArg some hxa)
    exact hadds (retrieveBounds_adds hx) rfl
  | attachBlock b =>
    obtain ⟨rfl, rfl⟩ := answer_inj hc
    exact ⟨attachBlock_normalised b hv, fun hr => by rw [attachBlock_refused hr]⟩
  | detachBlock b =>
    obtain ⟨rfl, rfl⟩ := answer_inj hc
    exact ⟨(v.detachBlock_shrinks b).normalised hv, fun hr => by rw [detachBlock_refused hr]⟩
  | clearAll =>
    obtain ⟨rfl, rfl⟩ := Prod.mk.inj (Option.some.inj hc)
    exact hshrinks ⟨rfl, fun b hb => absurd hb (KeyedStore.notMem_empty b)⟩ rfl
  | clearIteration i =>
    obtain ⟨rfl, rfl⟩ := Prod.mk.inj (Option.some.inj hc)
    exact hshrinks ⟨rfl, fun b hb => (KeyedStore.mem_filter.mp hb).1⟩ rfl
  | clearUpToIteration i =>
    obtain ⟨w, hw, hwa⟩ := Option.map_eq_some_iff.mp hc
    obtain ⟨rfl, rfl⟩ := Prod.mk.inj hwa
    refine hshrinks ⟨?_, fun b hb => ((mem_clearUpToIteration hw b).mp hb).1⟩ rfl
    unfold clearUpToIteration at hw
    split_ifs at hw
    obtain rfl := Option.some.inj hw
    rfl
  | clearSource s =>
    obtain ⟨rfl, rfl⟩ := Prod.mk.inj (Option.some.inj hc)
    exact hshrinks ⟨rfl, fun b hb => (KeyedStore.mem_filter.mp hb).1⟩ rfl
  | clearId i =>
    obtain ⟨rfl, rfl⟩ := Prod.mk.inj (Option.some.inj hc)
    exact hshrinks ⟨rfl, fun b hb => (KeyedStore.mem_filter.mp hb).1⟩ rfl

/-- `ClearUpToIteration` returns and takes exactly the blocks up to its argument
when, and only when, no block lies before iteration -1. -/
theorem clearUpToIteration_iff (v : Variable D) (i : ℤ) :
    (∃ v', v.clearUpToIteration i = some v' ∧
      ∀ b, b ∈ v'.blocks ↔ b ∈ v.blocks ∧ ¬ b.iteration ≤ i) ↔
    ∀ b ∈ v.blocks, -1 ≤ b.iteration := by
  constructor
  · rintro ⟨v', hv', hmem⟩ b hb
    by_contra hlt
    have hkept : b ∈ v'.blocks := (mem_clearUpToIteration hv' b).mpr ⟨hb, fun h => hlt h.1⟩
    have habove : i < b.iteration := not_le.mp ((hmem b).mp hkept).2
    -- the block lies beyond the end of the range and before its beginning
    have hbad : ∃ b ∈ v.blocks.elems, i < b.iteration ∧ b.iteration < -1 :=
      ⟨b, hb, habove, not_le.mp hlt⟩
    rw [clearUpToIteration, if_pos hbad] at hv'
    exact Option.some_ne_none v' hv'.symm
  · intro h
    have hgood : ¬ ∃ b ∈ v.blocks.elems, i < b.iteration ∧ b.iteration < -1 := by
      rintro ⟨b, hb, -, hlt⟩
      exact absurd (h b hb) (not_le.mpr hlt)
    refine ⟨_, if_neg hgood, fun b => ?_⟩
    rw [mem_clearUpToIteration (if_neg hgood) b]
    constructor
    · rintro ⟨hb, hn⟩
      exact ⟨hb, fun hle => hn ⟨h b hb, hle⟩⟩
    · rintro ⟨hb, hn⟩
      exact ⟨hb, fun hle => hn hle.2⟩

/-- The other `Clear` functions take what they name. -/
theorem clears_of_ne {v : Variable D} {c : Call H D} {named : Block D → Prop}
    (hc : c.names = some named) (hne : ∀ i, c ≠ .clearUpToIteration i) :
    ∃ v' a, v.call c = some (v', a) ∧ ∀ b, b ∈ v'.blocks ↔ b ∈ v.blocks ∧ ¬ named b := by
  cases c with
  | clearAll =>
    obtain rfl := Option.some.inj hc
    exact ⟨_, _, rfl, fun b => by simp [clearAll]⟩
  | clearUpToIteration i => exact absurd rfl (hne i)
  | clearIteration i =>
    obtain rfl := Option.some.inj hc
    exact ⟨_, _, rfl, fun b => by simp [clearIteration]⟩
  | clearSource s =>
    obtain rfl := Option.some.inj hc
    exact ⟨_, _, rfl, fun b => by simp [clearSource]⟩
  | clearId i =>
    obtain rfl := Option.some.inj hc
    exact ⟨_, _, rfl, fun b => by simp [clearId]⟩
  | _ => exact absurd hc nofun

theorem meets_iff {v : Variable D} (hv : v.Normalised) (c : Call H D) :
    v.Meets c ↔ v.FromMinusOne c := by
  have hspec : ∀ v' a, v.call c = some (v', a) →
      v'.Normalised ∧ (a.Refuses → v'.blocks = v.blocks) := fun _ _ => call_spec hv
  constructor
  · intro h
    cases c with
    | clearUpToIteration i =>
      obtain ⟨v', a, hcall, hmem⟩ := h.clears _ rfl
      obtain ⟨w, hw, hwa⟩ := Option.map_eq_some_iff.mp hcall
      obtain ⟨rfl, -⟩ := Prod.mk.inj hwa
      exact (v.clearUpToIteration_iff i).mp ⟨w, hw, hmem⟩
    | _ => trivial
  · intro h
    refine ⟨indexed_iff.mpr hv, fun v' a hc => indexed_iff.mpr (hspec v' a hc).1,
      fun v' a hc => (hspec v' a hc).2, fun named hnamed => ?_⟩
    by_cases hup : ∃ i, c = .clearUpToIteration i
    · obtain ⟨i, rfl⟩ := hup
      obtain rfl := Option.some.inj hnamed
      obtain ⟨v', hv', hmem⟩ := (v.clearUpToIteration_iff i).mpr h
      exact ⟨v', .done, by rw [call, hv']; rfl, hmem⟩
    · exact clears_of_ne hnamed fun i hi => hup ⟨i, hi⟩

theorem step_normalised (v : Variable D) (c : Call H D) (v' : Variable D) (hv : v.Normalised)
    (hs : v.step c = some v') : v'.Normalised := by
  obtain ⟨⟨w, a⟩, hw, rfl⟩ := Option.map_eq_some_iff.mp hs
  exact (call_spec hv hw).1

/-- Over any sequence of calls on a new variable, every call does what it
promises if and only if `ClearUpToIteration` is never called with a block before
iteration -1 in the index. -/
theorem blockIndex_iff (timeVarying : Bool) (layout : Layout) (cs : List (Call H D)) :
    StepSystem.Guarded step Meets (new timeVarying layout : Variable D) cs ↔
      StepSystem.Guarded step FromMinusOne (new timeVarying layout : Variable D) cs :=
  StepSystem.guarded_iff (I := Normalised)
    (fun v c v' hv _ hs => step_normalised v c v' hv hs) (fun _ c hv => meets_iff hv c)
    (fun _ b hb => absurd hb (KeyedStore.notMem_empty b))

/-- A block written at iteration -2 survives the clearing up to iteration 0. -/
theorem block_before_minusOne_kept : ¬ ∀ (timeVarying : Bool) (layout : Layout)
    (cs : List (Call Unit Unit)),
    StepSystem.Guarded step Meets (new timeVarying layout : Variable Unit) cs := by
  intro hall
  let buffer : Buffer Unit Unit := ⟨fun _ => some (some ()), fun _ => some (some ()), fun _ _ => some ()⟩
  have hmeets := ((hall true ⟨4, []⟩
    [.allocate (some buffer) 0 (-2) 0, .clearUpToIteration 0]).2 _ rfl).1
  have hclear := (meets_iff (fun h => absurd h (by decide)) _).mp hmeets
  exact absurd (hclear _ (List.mem_singleton.mpr rfl)) (by decide)

end Variable
end Damaris.Data
