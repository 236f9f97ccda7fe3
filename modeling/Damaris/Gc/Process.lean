import Damaris.Buffer.Destroy
import Damaris.Data.BlockIndex

/-!
# The blocks of a process

The variables of a process, and the `DataSpace` objects that their blocks and others have on its
regions. A block that leaves its index is destroyed, and its `DataSpace` with it, unless somebody
else holds the block.
-/
set_option linter.unusedSectionVars false

namespace Damaris

open Data Buffer StepSystem

/-- The variables of `VariableManager` in order, the `DataSpace` objects of the process, and those of
blocks that are held outside their index. -/
structure Process (ι R : Type) where
  vars : List (Variable ι)
  heap : Heap ι R
  held : Finset ι

namespace Process

variable {H ι R : Type} [DecidableEq ι] [DecidableEq R]

/-- The handles of a variable's blocks. -/
def handlesOf (v : Variable ι) : List ι := v.blocks.elems.filterMap Block.dataspace

/-- The handles that go away with the blocks that a call takes out of the index. -/
def gone (held : Finset ι) (v v' : Variable ι) : List ι :=
  ((v.blocks.elems.filter fun b => decide (b ∉ v'.blocks.elems)).filterMap Block.dataspace).filter
    fun o => decide (o ∉ held)

/-- A call on a variable, with the blocks that it removes destroyed. -/
def callVariable (s : Process ι R) (i : ℕ) (c : Call H ι) : Option (Process ι R) :=
  s.vars[i]?.bind fun v => (v.step c).bind fun v' =>
    (run Heap.step s.heap ((gone s.held v v').map .destroy)).map fun h =>
      { s with vars := s.vars.set i v', heap := h }

inductive Action (H ι R : Type)
  | dataSpace (a : Operation ι R)
  | call (i : ℕ) (c : Call H ι)
  | hold (o : ι)
  | letGo (o : ι)

def handles (s : Process ι R) : List ι := s.vars.flatMap handlesOf

def step (s : Process ι R) : Action H ι R → Option (Process ι R)
  | .dataSpace a => (s.heap.step a).map fun h => { s with heap := h }
  | .call i c => s.callVariable i c
  | .hold o => some { s with held := insert o s.held }
  | .letGo o =>
    if o ∈ s.handles then some { s with held := s.held.erase o }
    else (s.heap.step (.destroy o)).map fun h => { s with heap := h, held := s.held.erase o }

def initial (config : List (Bool × Layout)) : Process ι R :=
  ⟨config.map fun x => Variable.new x.1 x.2, .initial, ∅⟩

/-! ## Blocks and their handles -/

/-- The variable at this place holds the block. -/
def Stores (s : Process ι R) (i : ℕ) (b : Block ι) : Prop := ∃ v, s.vars[i]? = some v ∧ b ∈ v.blocks

/-- The counts are right, and every stored block has a living handle of its own. -/
structure Sound (s : Process ι R) : Prop where
  counted : s.heap.Counted
  live : ∀ i b o, s.Stores i b → b.dataspace = some o → o ∈ s.heap.live
  apart : ∀ i b j c o, s.Stores i b → s.Stores j c → b.dataspace = some o → c.dataspace = some o →
    i = j ∧ b = c
  held : ∀ o ∈ s.held, o ∈ s.heap.live

/-- The blocks that a call adds come with living handles, which no other block has. -/
structure OwnSpaces (s : Process ι R) (v v' : Variable ι) : Prop where
  fresh : ∀ b ∈ v'.blocks, b ∉ v.blocks → ∀ o, b.dataspace = some o →
    o ∈ s.heap.live ∧ ∀ i c, s.Stores i c → c.dataspace ≠ some o
  one : ∀ b ∈ v'.blocks, ∀ c ∈ v'.blocks, b ∉ v.blocks → c ∉ v.blocks →
    ∀ o, b.dataspace = some o → c.dataspace = some o → b = c

/-- What the language and the callers see to: operations on a `DataSpace` keep the counts right and do
not end that of a block, blocks do not share one, and held is what is a block's. -/
def Proper (s : Process ι R) : Action H ι R → Prop
  | .dataSpace a => s.heap.SafeStep a ∧
    ∀ o, a = .destroy o → o ∉ s.held ∧ ∀ i b, s.Stores i b → b.dataspace ≠ some o
  | .call i c => ∀ v v', s.vars[i]? = some v → v.step c = some v' → s.OwnSpaces v v'
  | .hold o => ∃ i b, s.Stores i b ∧ b.dataspace = some o
  | .letGo o => o ∈ s.held

theorem stores_of_eq_some {s : Process ι R} {i : ℕ} {v : Variable ι} (hv : s.vars[i]? = some v)
    (b : Block ι) : s.Stores i b ↔ b ∈ v.blocks := by
  simp [Stores, hv]

theorem stores_set {s t : Process ι R} {i : ℕ} {v v' : Variable ι} (hv : s.vars[i]? = some v)
    (ht : t.vars = s.vars.set i v') (j : ℕ) (b : Block ι) :
    t.Stores j b ↔ (j = i ∧ b ∈ v'.blocks) ∨ (j ≠ i ∧ s.Stores j b) := by
  have hi : i < s.vars.length := (List.getElem?_eq_some_iff.mp hv).1
  by_cases hj : j = i
  · subst hj
    simp [Stores, ht, hi]
  · simp [Stores, ht, hj, List.getElem?_set_ne (Ne.symm hj)]

theorem mem_gone {held : Finset ι} {v v' : Variable ι} {o : ι} :
    o ∈ gone held v v' ↔ (∃ b ∈ v.blocks, b ∉ v'.blocks ∧ b.dataspace = some o) ∧ o ∉ held := by
  simp [gone, KeyedStore.mem_def, and_assoc]

/-- The handles that go away are different ones. -/
theorem nodup_gone {s : Process ι R} (hs : s.Sound) {i : ℕ} {v : Variable ι}
    (hv : s.vars[i]? = some v) (v' : Variable ι) : (gone s.held v v').Nodup := by
  have hblocks : v.blocks.elems.Nodup := v.blocks.nodup.of_map _
  refine List.Nodup.filter _ (List.pairwise_filterMap.mpr ?_)
  refine (hblocks.filter _).imp_of_mem ?_
  intro b c hb hc hne o ho o' ho' he
  subst he
  have hb' := (stores_of_eq_some hv b).mpr (List.mem_of_mem_filter hb)
  have hc' := (stores_of_eq_some hv c).mpr (List.mem_of_mem_filter hc)
  exact hne (hs.apart i b i c o hb' hc' ho ho').2

section

variable {s t : Process ι R} {i : ℕ} {v v' : Variable ι}

/-- A block that was not stored before is one that the call adds. -/
theorem stored_new (hv : s.vars[i]? = some v) (ht : t.vars = s.vars.set i v') {j : ℕ} {b : Block ι}
    (hb : t.Stores j b) (hbs : ¬ s.Stores j b) : j = i ∧ b ∈ v'.blocks ∧ b ∉ v.blocks := by
  rcases (stores_set hv ht j b).mp hb with ⟨rfl, hmem⟩ | ⟨-, hbs'⟩
  · exact ⟨rfl, hmem, fun hmem => hbs ((stores_of_eq_some hv b).mpr hmem)⟩
  · exact absurd hbs' hbs

/-- The handles of blocks that are stored after a call live, and do not go away with it. -/
theorem OwnSpaces.kept (hown : s.OwnSpaces v v') (hs : s.Sound) (hv : s.vars[i]? = some v)
    (ht : t.vars = s.vars.set i v') {j : ℕ} {b : Block ι} {o : ι} (hb : t.Stores j b)
    (ho : b.dataspace = some o) : o ∈ s.heap.live ∧ o ∉ gone s.held v v' := by
  by_cases hbs : s.Stores j b
  · refine ⟨hs.live j b o hbs ho, fun hgone => ?_⟩
    obtain ⟨⟨b', hb', hnot, ho'⟩, -⟩ := mem_gone.mp hgone
    obtain ⟨rfl, rfl⟩ := hs.apart j b i b' o hbs ((stores_of_eq_some hv b').mpr hb') ho ho'
    rcases (stores_set hv ht j b).mp hb with ⟨-, hmem⟩ | ⟨hne, -⟩
    · exact hnot hmem
    · exact hne rfl
  · obtain ⟨rfl, hmem, hfresh⟩ := stored_new hv ht hb hbs
    obtain ⟨hlive, hnobody⟩ := hown.fresh b hmem hfresh o ho
    refine ⟨hlive, fun hgone => ?_⟩
    obtain ⟨⟨b', hb', -, ho'⟩, -⟩ := mem_gone.mp hgone
    exact hnobody _ b' ((stores_of_eq_some hv b').mpr hb') ho'

/-- Blocks do not share a handle after a call. -/
theorem OwnSpaces.apart (hown : s.OwnSpaces v v') (hs : s.Sound) (hv : s.vars[i]? = some v)
    (ht : t.vars = s.vars.set i v') {j k : ℕ} {b c : Block ι} {o : ι} (hb : t.Stores j b)
    (hc : t.Stores k c) (ho : b.dataspace = some o) (ho' : c.dataspace = some o) :
    j = k ∧ b = c := by
  by_cases hbs : s.Stores j b
  · by_cases hcs : s.Stores k c
    · exact hs.apart j b k c o hbs hcs ho ho'
    · obtain ⟨-, hmem, hfresh⟩ := stored_new hv ht hc hcs
      exact absurd ho ((hown.fresh c hmem hfresh o ho').2 j b hbs)
  · obtain ⟨rfl, hmem, hfresh⟩ := stored_new hv ht hb hbs
    by_cases hcs : s.Stores k c
    · exact absurd ho' ((hown.fresh b hmem hfresh o ho).2 k c hcs)
    · obtain ⟨rfl, hmem', hfresh'⟩ := stored_new hv ht hc hcs
      exact ⟨rfl, hown.one b hmem c hmem' hfresh hfresh' o ho ho'⟩

/-- A call with its blocks destroyed: the handles left belong to blocks as before. -/
theorem callVariable_spec {c : Call H ι} (hs : s.Sound) (hv : s.vars[i]? = some v)
    (hc : v.step c = some v') (hown : s.OwnSpaces v v') :
    ∃ h, s.callVariable i c = some { s with vars := s.vars.set i v', heap := h } ∧
      s.heap.Destroyed h (gone s.held v v') ∧
      Sound { s with vars := s.vars.set i v', heap := h } := by
  have hlive : ∀ o ∈ gone s.held v v', o ∈ s.heap.live := by
    intro o ho
    obtain ⟨⟨b, hb, -, hbo⟩, -⟩ := mem_gone.mp ho
    exact hs.live i b o ((stores_of_eq_some hv b).mpr hb) hbo
  obtain ⟨h, hrun, hd⟩ := Heap.run_destroy (nodup_gone hs hv v') hs.counted hlive
  refine ⟨h, by simp [callVariable, hv, hc, hrun], hd, hd.counted, fun j b o hb ho => ?_,
    fun j b k c o hb hc ho ho' => hown.apart hs hv rfl hb hc ho ho', fun o ho => ?_⟩
  · exact (hd.live o).mpr (hown.kept hs hv rfl hb ho)
  · exact (hd.live o).mpr ⟨hs.held o ho, fun hgone => (mem_gone.mp hgone).2 ho⟩

end

theorem mem_handles {s : Process ι R} {o : ι} :
    o ∈ s.handles ↔ ∃ i b, s.Stores i b ∧ b.dataspace = some o := by
  simp only [handles, handlesOf, List.mem_flatMap, List.mem_filterMap]
  constructor
  · rintro ⟨v, hv, b, hb, ho⟩
    obtain ⟨i, hi⟩ := List.mem_iff_getElem?.mp hv
    exact ⟨i, b, ⟨v, hi, hb⟩, ho⟩
  · rintro ⟨i, b, ⟨v, hv, hb⟩, ho⟩
    exact ⟨v, List.mem_of_getElem? hv, b, hb, ho⟩

theorem sound_initial (config : List (Bool × Layout)) : (initial config : Process ι R).Sound := by
  have hempty : ∀ i b, ¬ (initial config : Process ι R).Stores i b := by
    rintro i b ⟨v, hv, hb⟩
    simp only [initial, List.getElem?_map, Option.map_eq_some_iff] at hv
    obtain ⟨x, -, rfl⟩ := hv
    exact KeyedStore.notMem_empty b hb
  exact ⟨Heap.counted_initial, fun i b o hb => absurd hb (hempty i b),
    fun i b j c o hb => absurd hb (hempty i b), fun o ho => absurd ho (Finset.notMem_empty o)⟩

/-- Between calls, the `DataSpace` objects of blocks live on. -/
theorem sound_of_live {s : Process ι R} (hs : s.Sound) {h : Heap ι R} {held : Finset ι}
    (hc : h.Counted) (hlive : ∀ o ∈ s.heap.live, (o ∈ s.handles ∨ o ∈ held) → o ∈ h.live)
    (hheld : ∀ o ∈ held, o ∈ s.heap.live) :
    Sound { s with heap := h, held := held } := by
  refine ⟨hc, fun i b o hb ho => ?_, hs.apart, fun o ho => hlive o (hheld o ho) (.inr ho)⟩
  exact hlive o (hs.live i b o hb ho) (.inl (mem_handles.mpr ⟨i, b, hb, ho⟩))

theorem step_sound {s s' : Process ι R} {a : Action H ι R} (hs : s.Sound) (ha : s.Proper a)
    (hstep : s.step a = some s') : s'.Sound := by
  cases a with
  | dataSpace a =>
    obtain ⟨h, hh, rfl⟩ := Option.map_eq_some_iff.mp hstep
    refine sound_of_live hs (Heap.step_counted hs.counted ha.1 hh).1 ?_ hs.held
    intro o ho hblock
    refine Heap.live_of_step hh ho fun he => ?_
    obtain ⟨hheld, hnobody⟩ := ha.2 o he
    rcases hblock with hblock | hblock
    · obtain ⟨i, b, hb, hbo⟩ := mem_handles.mp hblock
      exact hnobody i b hb hbo
    · exact hheld hblock
  | call i c =>
    simp only [step] at hstep
    have hdef := hstep
    unfold callVariable at hdef
    obtain ⟨v, hv, hdef⟩ := Option.bind_eq_some_iff.mp hdef
    obtain ⟨v', hc, -⟩ := Option.bind_eq_some_iff.mp hdef
    obtain ⟨h, hcall, -, hsound⟩ := callVariable_spec hs hv hc (ha v v' hv hc)
    obtain rfl := Option.some.inj (hcall.symm.trans hstep)
    exact hsound
  | hold o =>
    obtain rfl := Option.some.inj hstep
    obtain ⟨i, b, hb, ho⟩ := ha
    refine sound_of_live hs hs.counted (fun x hx _ => hx) fun x hx => ?_
    rcases Finset.mem_insert.mp hx with rfl | hx
    · exact hs.live i b x hb ho
    · exact hs.held x hx
  | letGo o =>
    simp only [step] at hstep
    have hheld : ∀ x ∈ s.held.erase o, x ∈ s.heap.live :=
      fun x hx => hs.held x (Finset.mem_of_mem_erase hx)
    split_ifs at hstep with hstored
    · obtain rfl := Option.some.inj hstep
      exact sound_of_live hs hs.counted (fun x hx _ => hx) hheld
    · obtain ⟨h, hh, rfl⟩ := Option.map_eq_some_iff.mp hstep
      have hd := Heap.destroy_destroyed hs.counted (hs.held o ha)
      obtain rfl := Option.some.inj ((if_pos (hs.held o ha)).symm.trans hh)
      refine sound_of_live hs hd.counted (fun x hx hblock => (hd.live x).mpr ⟨hx, ?_⟩) hheld
      rintro hxo
      obtain rfl := List.mem_singleton.mp hxo
      rcases hblock with hblock | hblock
      · exact hstored hblock
      · exact Finset.notMem_erase x s.held hblock

/-- Every state of a proper run is sound. -/
theorem sound_of_run {config : List (Bool × Layout)} {as : List (Action H ι R)} {s : Process ι R}
    (hproper : Guarded step Proper (initial config) as)
    (hr : run step (initial config) as = some s) : s.Sound :=
  guarded_invariant (fun _ _ _ hs ha hstep => step_sound hs ha hstep) (sound_initial config) hproper
    hr

end Process
end Damaris
