import Damaris.Gc.Process

/-!
# The garbage collector

`GarbageCollector::Call` clears the time-varying variables up to an iteration. What it removes, and
which regions go with that, is exact.
-/
set_option linter.unusedSectionVars false

namespace Damaris.Process

open Data Buffer StepSystem

variable {H ι R : Type} [DecidableEq ι] [DecidableEq R]

/-! ## The collection -/

/-- The body of the loop, for the variable at this place. -/
def collect (k : ℤ) (s : Process ι R) (i : ℕ) : Option (Process ι R) :=
  s.vars[i]?.bind fun v =>
    if v.timeVarying then s.callVariable i (.clearUpToIteration k : Call Unit ι) else some s

/-- `GarbageCollector::Call`. -/
def call (s : Process ι R) (iteration : ℤ) : Option (Process ι R) :=
  (List.range s.vars.length).foldlM (collect iteration) s

/-- What a collection leaves of a variable. -/
def swept (k : ℤ) (v : Variable ι) : Variable ι :=
  if v.timeVarying then { v with blocks := v.blocks.filter fun b => decide (k < b.iteration) }
  else v

/-- The handle of a block that this variable has to give up, and that nobody else holds. -/
def CondemnedAt (s : Process ι R) (k : ℤ) (i : ℕ) (o : ι) : Prop :=
  ∃ v b, s.vars[i]? = some v ∧ v.timeVarying = true ∧ b ∈ v.blocks ∧ b.iteration ≤ k ∧
    b.dataspace = some o ∧ o ∉ s.held

def Condemned (s : Process ι R) (k : ℤ) (o : ι) : Prop := ∃ i, s.CondemnedAt k i o

/-- The region belongs to a block that goes away and owns it, and has no other reference. -/
def Lost (s : Process ι R) (k : ℤ) (g : R) : Prop :=
  (∃ o c, s.Condemned k o ∧ s.heap.Holds o g c ∧ s.heap.owns c = true) ∧
    ∀ o c, s.heap.Holds o g c → s.Condemned k o

/-- What the collection promises. -/
structure Collected (s : Process ι R) (k : ℤ) (s' : Process ι R) : Prop where
  length : s'.vars.length = s.vars.length
  timeVarying : ∀ (i : ℕ) (v : Variable ι), s.vars[i]? = some v → v.timeVarying = true →
    ∃ v' : Variable ι, s'.vars[i]? = some v' ∧
      (∀ b, b ∈ v'.blocks ↔ b ∈ v.blocks ∧ k < b.iteration) ∧
      v'.timeVarying = true ∧ v'.layout = v.layout ∧ v'.positions = v.positions
  others : ∀ (i : ℕ) (v : Variable ι), s.vars[i]? = some v → v.timeVarying = false →
    s'.vars[i]? = some v
  lost : ∀ g, s.Lost k g → s'.heap.deallocated.count g = s.heap.deallocated.count g + 1
  kept : ∀ g, ¬ s.Lost k g → s'.heap.deallocated.count g = s.heap.deallocated.count g

theorem clear_eq_swept {v : Variable ι} {k : ℤ} (htv : v.timeVarying = true)
    (hiter : ∀ b ∈ v.blocks, 0 ≤ b.iteration) :
    v.step (.clearUpToIteration k : Call Unit ι) = some (swept k v) := by
  have hdefined : ¬ ∃ b ∈ v.blocks.elems, k < b.iteration ∧ b.iteration < -1 := by
    rintro ⟨b, hb, -, hlow⟩
    have := hiter b hb
    omega
  have hfilter : v.blocks.filter (fun b => decide ¬ (-1 ≤ b.iteration ∧ b.iteration ≤ k)) =
      v.blocks.filter fun b => decide (k < b.iteration) := by
    refine KeyedStore.filter_congr fun b hb => decide_eq_decide.mpr ?_
    have := hiter b hb
    omega
  rw [Variable.step, Variable.call, Variable.clearUpToIteration, if_neg hdefined, hfilter, swept,
    if_pos htv]
  rfl

theorem mem_gone_swept {s : Process ι R} {k : ℤ} {i : ℕ} {v : Variable ι} (hv : s.vars[i]? = some v)
    (htv : v.timeVarying = true) {o : ι} :
    o ∈ gone s.held v (swept k v) ↔ s.CondemnedAt k i o := by
  have hblocks : ∀ b, b ∈ (swept k v).blocks ↔ b ∈ v.blocks ∧ k < b.iteration := by
    intro b
    simp [swept, htv]
  rw [mem_gone]
  constructor
  · rintro ⟨⟨b, hb, hnot, ho⟩, hheld⟩
    have hle : b.iteration ≤ k := not_lt.mp fun hlt => hnot ((hblocks b).mpr ⟨hb, hlt⟩)
    exact ⟨v, b, hv, htv, hb, hle, ho, hheld⟩
  · rintro ⟨w, b, hw, -, hb, hle, ho, hheld⟩
    obtain rfl : w = v := Option.some.inj (hw.symm.trans hv)
    exact ⟨⟨b, hb, fun hkept => absurd ((hblocks b).mp hkept).2 (not_lt.mpr hle), ho⟩, hheld⟩

/-- Clearing adds no block. -/
theorem ownSpaces_swept (s : Process ι R) (k : ℤ) (v : Variable ι) : s.OwnSpaces v (swept k v) := by
  have hsub : ∀ b ∈ (swept k v).blocks, b ∈ v.blocks := by
    intro b hb
    unfold swept at hb
    split_ifs at hb
    · exact (KeyedStore.mem_filter.mp hb).1
    · exact hb
  exact ⟨fun b hb hnot => absurd (hsub b hb) hnot, fun b hb c _ hnot => absurd (hsub b hb) hnot⟩

/-- The loop before its `n`-th variable. -/
structure Upto (s : Process ι R) (k : ℤ) (n : ℕ) (t : Process ι R) : Prop where
  sound : t.Sound
  held : t.held = s.held
  vars : ∀ i, t.vars[i]? = s.vars[i]?.map fun v => if i < n then swept k v else v
  holds : ∀ o g c, t.heap.Holds o g c ↔ s.heap.Holds o g c ∧ ¬ ∃ i < n, s.CondemnedAt k i o
  owns : t.heap.owns = s.heap.owns
  releases : s.heap.Releases t.heap

theorem upto_zero {s : Process ι R} (hs : s.Sound) (k : ℤ) : s.Upto k 0 s :=
  ⟨hs, rfl, fun i => by simp, fun o g c => by simp, rfl, .refl s.heap⟩

/-- One round of the loop. -/
theorem collect_upto {s t : Process ι R} {k : ℤ} {n : ℕ} (hn : n < s.vars.length)
    (hs : s.Sound) (hiter : ∀ i b, s.Stores i b → 0 ≤ b.iteration) (ht : s.Upto k n t) :
    ∃ t', collect k t n = some t' ∧ s.Upto k (n + 1) t' := by
  obtain ⟨v, hv⟩ : ∃ v, s.vars[n]? = some v := ⟨_, List.getElem?_eq_getElem hn⟩
  have hvt : t.vars[n]? = some v := by simp [ht.vars n, hv]
  have hbelow : ∀ o, (∃ i < n + 1, s.CondemnedAt k i o) ↔
      (∃ i < n, s.CondemnedAt k i o) ∨ s.CondemnedAt k n o := by
    intro o
    simp only [Nat.lt_succ_iff_lt_or_eq, or_and_right, exists_or, exists_eq_left]
  cases htv : v.timeVarying with
  | false =>
    have hnone : ∀ o, ¬ s.CondemnedAt k n o := by
      rintro o ⟨w, b, hw, hwtv, -⟩
      obtain rfl : w = v := Option.some.inj (hw.symm.trans hv)
      exact absurd hwtv (by simp [htv])
    refine ⟨t, by simp [collect, hvt, htv], ht.sound, ht.held, fun i => ?_, fun o g c => ?_,
      ht.owns, ht.releases⟩
    · rw [ht.vars i]
      by_cases hi : i = n
      · subst hi
        simp [hv, swept, htv]
      · have hlt : i < n + 1 ↔ i < n := by omega
        simp only [hlt]
    · rw [ht.holds, hbelow, or_iff_left (hnone o)]
  | true =>
    have hstored : ∀ b ∈ v.blocks, 0 ≤ b.iteration :=
      fun b hb => hiter n b ((stores_of_eq_some hv b).mpr hb)
    obtain ⟨h, hcall, hd, hsound⟩ := callVariable_spec ht.sound hvt
      (clear_eq_swept htv hstored) (ownSpaces_swept t k v)
    have hgone : ∀ o, o ∈ gone t.held v (swept k v) ↔ s.CondemnedAt k n o := by
      intro o
      rw [ht.held]
      exact mem_gone_swept hv htv
    refine ⟨_, by simp [collect, hvt, htv, hcall], hsound, ht.held, fun i => ?_, fun o g c => ?_,
      hd.owns.trans ht.owns, ?_⟩
    · have hlen : n < t.vars.length := (List.getElem?_eq_some_iff.mp hvt).1
      by_cases hi : i = n
      · subst hi
        simp [hlen, hv]
      · have hlt : i < n + 1 ↔ i < n := by omega
        simp only [List.getElem?_set_ne (Ne.symm hi), ht.vars i, hlt]
    · rw [hd.holds, ht.holds, hgone, hbelow, not_or, and_assoc]
    · exact .trans hs.counted ht.releases hd.releases (fun o g c ho => ((ht.holds o g c).mp ho).1)
        (fun o g c ho => ((hd.holds o g c).mp ho).1) ht.owns

/-- All rounds. -/
theorem collects_upto {s : Process ι R} {k : ℤ} (hs : s.Sound)
    (hiter : ∀ i b, s.Stores i b → 0 ≤ b.iteration) {n : ℕ} (hn : n ≤ s.vars.length) :
    ∃ t, (List.range n).foldlM (collect k) s = some t ∧ s.Upto k n t := by
  induction n with
  | zero => exact ⟨s, rfl, upto_zero hs k⟩
  | succ n ih =>
    obtain ⟨t, hrun, ht⟩ := ih (Nat.le_of_succ_le hn)
    obtain ⟨t', hround, ht'⟩ := collect_upto hn hs hiter ht
    refine ⟨t', ?_, ht'⟩
    rw [List.range_succ, List.foldlM_append, hrun]
    simp [hround]

/-- A region is handed back in the loop when it is lost. -/
theorem lost_iff {s t : Process ι R} {k : ℤ} (ht : s.Upto k s.vars.length t) (g : R) :
    s.Lost k g ↔ (∃ o c, s.heap.Holds o g c ∧ s.heap.owns c = true) ∧ t.heap.linked g = ∅ := by
  have hall : ∀ o, (∃ i < s.vars.length, s.CondemnedAt k i o) ↔ s.Condemned k o := by
    intro o
    constructor
    · rintro ⟨i, -, hi⟩
      exact ⟨i, hi⟩
    · rintro ⟨i, v, b, hv, hrest⟩
      exact ⟨i, (List.getElem?_eq_some_iff.mp hv).1, v, b, hv, hrest⟩
  have hempty : t.heap.linked g = ∅ ↔ ∀ o c, s.heap.Holds o g c → s.Condemned k o := by
    rw [Finset.eq_empty_iff_forall_notMem]
    constructor
    · intro h o c ho
      by_contra hnot
      exact h o (Heap.mem_linked.mpr ⟨c, (ht.holds o g c).mpr ⟨ho, by rwa [hall]⟩⟩)
    · intro h o hmem
      obtain ⟨c, ho⟩ := Heap.mem_linked.mp hmem
      obtain ⟨ho, hnot⟩ := (ht.holds o g c).mp ho
      exact hnot ((hall o).mpr (h o c ho))
  rw [hempty]
  constructor
  · rintro ⟨⟨o, c, -, ho, hown⟩, hrest⟩
    exact ⟨⟨o, c, ho, hown⟩, hrest⟩
  · rintro ⟨⟨o, c, ho, hown⟩, hrest⟩
    exact ⟨⟨o, c, hrest o c ho, ho, hown⟩, hrest⟩

theorem collected_of_upto {s t : Process ι R} {k : ℤ} (ht : s.Upto k s.vars.length t) :
    s.Collected k t := by
  have hvars : ∀ (i : ℕ) (v : Variable ι), s.vars[i]? = some v → t.vars[i]? = some (swept k v) := by
    intro i v hv
    have hi : i < s.vars.length := (List.getElem?_eq_some_iff.mp hv).1
    rw [ht.vars i, hv, Option.map_some, if_pos hi]
  refine ⟨?_, fun i v hv htv => ⟨_, hvars i v hv, ?_⟩, fun i v hv htv => ?_, fun g hg => ?_,
    fun g hg => ?_⟩
  · have hnone : ∀ i : ℕ, t.vars[i]? = none ↔ s.vars[i]? = none := by
      intro i
      rw [ht.vars i, Option.map_eq_none_iff]
    simp only [List.getElem?_eq_none_iff] at hnone
    exact le_antisymm ((hnone _).mpr le_rfl) ((hnone _).mp le_rfl)
  · simp [swept, htv]
  · rw [hvars i v hv]
    simp [swept, htv]
  · exact (ht.releases g).1 ((lost_iff ht g).mp hg)
  · exact (ht.releases g).2 fun hall => hg ((lost_iff ht g).mpr hall)

theorem call_collected {s : Process ι R} (hs : s.Sound)
    (hiter : ∀ i b, s.Stores i b → 0 ≤ b.iteration) (k : ℤ) :
    ∃ s', s.call k = some s' ∧ s.Collected k s' := by
  obtain ⟨t, hrun, ht⟩ := collects_upto hs hiter le_rfl
  exact ⟨t, hrun, collected_of_upto ht⟩

/-- After any run, a collection removes exactly the blocks up to its iteration, and hands back exactly
their regions. -/
theorem garbageCollection_exact {config : List (Bool × Layout)} {as : List (Action H ι R)}
    {s : Process ι R} (hproper : Guarded step Proper (initial config) as)
    (hr : run step (initial config) as = some s) (hiter : ∀ i b, s.Stores i b → 0 ≤ b.iteration)
    (k : ℤ) : ∃ s', s.call k = some s' ∧ s.Collected k s' :=
  call_collected (sound_of_run hproper hr) hiter k

/-- One time-varying variable is given a block at iteration 0. -/
def writes : List (Action Unit ℕ ℕ) :=
  [.dataSpace (.construct 0 (some 0) 4),
    .call 0 (.allocate (some ⟨fun _ => some (some 0), fun _ => none, fun _ _ => none⟩) 0 0 0)]

theorem mem_of_stores {s : Process ι R} {v : Variable ι} (hs : s.vars = [v]) {i : ℕ} {b : Block ι}
    (hb : s.Stores i b) : b ∈ v.blocks := by
  obtain ⟨w, hw, hb⟩ := hb
  have hmem : w ∈ s.vars := List.mem_of_getElem? hw
  rw [hs, List.mem_singleton] at hmem
  rwa [← hmem]

theorem proper_writes : Guarded step Proper (initial [(true, ⟨4, []⟩)]) writes := by
  refine ⟨⟨fun _ => rfl, fun o ho => by cases ho⟩, fun s hs =>
    ⟨fun v v' hv hv' => ?_, fun _ _ => trivial⟩⟩
  obtain rfl := Option.some.inj hs
  obtain rfl := Option.some.inj hv
  obtain rfl := Option.some.inj hv'
  refine ⟨fun b hb _ o ho => ⟨?_, fun i c hc => ?_⟩, fun b hb c hc _ _ _ _ _ => ?_⟩
  · obtain rfl := List.mem_singleton.mp hb
    obtain rfl := Option.some.inj ho
    decide
  · exact absurd (mem_of_stores rfl hc) (KeyedStore.notMem_empty c)
  · exact (List.mem_singleton.mp hb).trans (List.mem_singleton.mp hc).symm

theorem garbageCollection_exact_writes : ∃ s s' : Process ℕ ℕ,
    run step (initial [(true, ⟨4, []⟩)]) writes = some s ∧ s.call 0 = some s' ∧
      s.Collected 0 s' := by
  obtain ⟨s', hcall, hcollected⟩ := garbageCollection_exact proper_writes rfl (fun i b hb => by
    obtain rfl := List.mem_singleton.mp (mem_of_stores rfl hb)
    decide) 0
  exact ⟨_, s', rfl, hcall, hcollected⟩

end Damaris.Process
