import Damaris.Storage.Collective
import Damaris.Data.BlockIndex

/-!
# When an iteration counts as empty

`Store::IterationIsEmpty` decides from the counts of blocks whether there is anything to output.
A variable that does not vary in time is counted with its blocks of iteration 0 at every iteration.
It is written in the first one only.
-/
namespace Damaris

open Data StepSystem

namespace Data.Variable

variable {D : Type*}

/-- `CountTotalBlocks`, an `int`: `none` when the number is none, and its value not for the source to
say. -/
def countTotalBlocks (servers : ℕ) (v : Variable D) (iteration : ℤ) : Option ℕ :=
  let total := servers * v.countLocalBlocks iteration
  if total < 2 ^ 31 then some total else none

/-- The iteration of the blocks that are counted. -/
def counted (v : Variable D) (iteration : ℤ) : List (Block D) :=
  v.blocksByIteration (v.normalise iteration)

/-- The blocks that are written. -/
def written (v : Variable D) (iteration : ℤ) : List (Block D) :=
  if v.writtenIn iteration then v.blocksByIteration iteration else []

theorem countLocalBlocks_eq (v : Variable D) (i : ℤ) :
    v.countLocalBlocks i = (v.counted i).length := rfl

theorem countTotalBlocks_eq_zero {v : Variable D} {i : ℤ} (servers : ℕ) (h : v.counted i = []) :
    v.countTotalBlocks servers i = some 0 := by
  simp [countTotalBlocks, countLocalBlocks_eq, h]

theorem blocksByIteration_ne_nil {v : Variable D} {i : ℤ} :
    v.blocksByIteration i ≠ [] ↔ ∃ b ∈ v.blocks, b.iteration = i := by
  simp only [blocksByIteration, ne_eq, List.filter_eq_nil_iff, decide_eq_true_eq, not_forall, not_not,
    exists_prop]
  rfl

/-- What varies in time is counted as it is written. -/
theorem written_of_timeVarying {v : Variable D} (h : v.timeVarying = true) (i : ℤ) :
    v.written i = v.counted i := by
  simp [written, counted, writtenIn, normalise, h]

/-- What does not vary in time is written at iteration 0 or not at all. -/
theorem written_of_not_timeVarying {v : Variable D} (h : v.timeVarying = false) (hv : v.Normalised)
    {i : ℤ} (hi : i ≠ 0) : v.written i = [] := by
  unfold written
  split_ifs with hw
  · by_contra hne
    obtain ⟨b, hb, rfl⟩ := blocksByIteration_ne_nil.mp hne
    exact hi (hv h b hb)
  · rfl

theorem written_zero (v : Variable D) : v.written 0 = v.counted 0 := by
  cases h : v.timeVarying <;> simp [written, counted, writtenIn, normalise, h]

/-- Counted without varying in time: there is a block. -/
theorem counted_of_not_timeVarying {v : Variable D} (h : v.timeVarying = false) (hv : v.Normalised)
    (i : ℤ) : v.counted i ≠ [] ↔ ∃ b, b ∈ v.blocks := by
  rw [counted, blocksByIteration_ne_nil, normalise, h]
  constructor
  · rintro ⟨b, hb, -⟩
    exact ⟨b, hb⟩
  · rintro ⟨b, hb⟩
    exact ⟨b, hb, hv h b hb⟩

/-- A variable as the calls of a server leave it. -/
def Reachable (H : Type*) (v : Variable D) : Prop :=
  ∃ (timeVarying : Bool) (layout : Layout) (cs : List (Call H D)),
    run step (new timeVarying layout) cs = some v

theorem Reachable.normalised {H : Type*} {v : Variable D} (h : v.Reachable H) : v.Normalised := by
  obtain ⟨timeVarying, layout, cs, hr⟩ := h
  refine run_invariant (fun v c v' => step_normalised v c v') ?_ hr
  intro _ b hb
  exact absurd hb (KeyedStore.notMem_empty b)

end Data.Variable

namespace Store

variable {D : Type*}

/-- `IterationIsEmpty`: the variables in turn, up to the first one with blocks. -/
def iterationIsEmpty (servers : ℕ) : List (Variable D) → ℤ → Option Bool
  | [], _ => some true
  | v :: vars, iteration =>
    (v.countTotalBlocks servers iteration).bind fun n =>
      if n > 0 then some false else iterationIsEmpty servers vars iteration

/-- The first variable that counts decides; its total must be an `int`. -/
def FirstFits (servers : ℕ) (vars : List (Variable D)) (iteration : ℤ) : Prop :=
  ∀ v, vars.find? (fun v => decide (v.countLocalBlocks iteration ≠ 0)) = some v →
    servers * v.countLocalBlocks iteration < 2 ^ 31

instance (servers : ℕ) (vars : List (Variable D)) (iteration : ℤ) :
    Decidable (FirstFits servers vars iteration) := by
  unfold FirstFits
  cases vars.find? fun v => decide (v.countLocalBlocks iteration ≠ 0) with
  | none => exact .isTrue fun v h => by cases h
  | some v => exact decidable_of_iff (servers * v.countLocalBlocks iteration < 2 ^ 31) (by simp)

/-- Nothing is counted that is not written, unless something is written all the same. -/
def Agree (vars : List (Variable D)) (iteration : ℤ) : Prop :=
  iteration = 0 ∨ (∀ v ∈ vars, v.timeVarying = false → ∀ b, b ∉ v.blocks) ∨
    ∃ v ∈ vars, v.timeVarying = true ∧ ∃ b ∈ v.blocks, b.iteration = iteration

theorem iterationIsEmpty_of_fits {servers : ℕ} (hservers : 0 < servers) {i : ℤ} :
    ∀ {vars : List (Variable D)}, FirstFits servers vars i →
      iterationIsEmpty servers vars i = some (!decide (∃ v ∈ vars, v.counted i ≠ []))
  | [], _ => by simp [iterationIsEmpty]
  | v :: vars, h => by
    by_cases hv : v.counted i = []
    · have hzero : v.countLocalBlocks i = 0 := by rw [v.countLocalBlocks_eq, hv, List.length_nil]
      have hrest : FirstFits servers vars i := by simpa [FirstFits, hzero] using h
      rw [iterationIsEmpty, v.countTotalBlocks_eq_zero servers hv, Option.bind_some,
        if_neg (by decide), iterationIsEmpty_of_fits hservers hrest]
      simp [hv]
    · have hpos : 0 < v.countLocalBlocks i := by
        rw [v.countLocalBlocks_eq]
        exact List.length_pos_of_ne_nil hv
      have hfits : servers * v.countLocalBlocks i < 2 ^ 31 := h v (by simp [hpos.ne'])
      have htotal : 0 < servers * v.countLocalBlocks i := Nat.mul_pos hservers hpos
      rw [iterationIsEmpty, Variable.countTotalBlocks, if_pos hfits, Option.bind_some, if_pos htotal]
      simp [hv]

theorem fits_of_iterationIsEmpty {servers : ℕ} {i : ℤ} :
    ∀ {vars : List (Variable D)} {e : Bool}, iterationIsEmpty servers vars i = some e →
      FirstFits servers vars i
  | [], _, _ => by simp [FirstFits]
  | v :: vars, e, h => by
    by_cases hv : v.counted i = []
    · have hzero : v.countLocalBlocks i = 0 := by rw [v.countLocalBlocks_eq, hv, List.length_nil]
      rw [iterationIsEmpty, v.countTotalBlocks_eq_zero servers hv, Option.bind_some,
        if_neg (by decide)] at h
      simpa [FirstFits, hzero] using fits_of_iterationIsEmpty h
    · have hpos : 0 < v.countLocalBlocks i := by
        rw [v.countLocalBlocks_eq]
        exact List.length_pos_of_ne_nil hv
      rw [iterationIsEmpty, Variable.countTotalBlocks] at h
      split_ifs at h with hfits
      · intro w hw
        obtain rfl : v = w := by simpa [hpos.ne'] using hw
        exact hfits
      · cases h

/-- Counted is everything that is written. -/
theorem counted_of_written {v : Variable D} (hv : v.Normalised) {i : ℤ} (h : v.written i ≠ []) :
    v.counted i ≠ [] := by
  cases htv : v.timeVarying with
  | true => rwa [Variable.written_of_timeVarying htv] at h
  | false =>
    have hi : i = 0 := by
      by_contra hi
      exact h (Variable.written_of_not_timeVarying htv hv hi)
    subst hi
    rwa [v.written_zero] at h

theorem agree_iff {vars : List (Variable D)} (hvars : ∀ v ∈ vars, v.Normalised) (i : ℤ) :
    ((∃ v ∈ vars, v.counted i ≠ []) ↔ ∃ v ∈ vars, v.written i ≠ []) ↔ Agree vars i := by
  constructor
  · intro h
    by_cases hi : i = 0
    · exact .inl hi
    · refine .inr (or_iff_not_imp_left.mpr fun hsome => ?_)
      simp only [not_forall, not_not] at hsome
      obtain ⟨v, hv, htv, b, hb⟩ := hsome
      have hcounted : v.counted i ≠ [] :=
        (Variable.counted_of_not_timeVarying htv (hvars v hv) i).mpr ⟨b, hb⟩
      obtain ⟨w, hw, hwritten⟩ := h.mp ⟨v, hv, hcounted⟩
      have hwtv : w.timeVarying = true := by
        by_contra hwtv
        exact hwritten (Variable.written_of_not_timeVarying (by simpa using hwtv) (hvars w hw) hi)
      refine ⟨w, hw, hwtv, ?_⟩
      rw [Variable.written_of_timeVarying hwtv, Variable.counted, Variable.blocksByIteration_ne_nil,
        Variable.normalise, if_pos hwtv] at hwritten
      exact hwritten
  · intro h
    constructor
    · rintro ⟨v, hv, hcounted⟩
      rcases h with rfl | hnone | ⟨w, hw, htv, hb⟩
      · exact ⟨v, hv, by rwa [v.written_zero]⟩
      · cases htv : v.timeVarying with
        | true => exact ⟨v, hv, by rwa [Variable.written_of_timeVarying htv]⟩
        | false =>
          obtain ⟨b, hb⟩ := (Variable.counted_of_not_timeVarying htv (hvars v hv) i).mp hcounted
          exact absurd hb (hnone v hv htv b)
      · refine ⟨w, hw, ?_⟩
        rw [Variable.written_of_timeVarying htv, Variable.counted, Variable.blocksByIteration_ne_nil,
          Variable.normalise, if_pos htv]
        exact hb
    · rintro ⟨v, hv, hw⟩
      exact ⟨v, hv, counted_of_written (hvars v hv) hw⟩

end Store

namespace HDF5Store

open Store

variable {S V : Type}

theorem outputPerCore_ne_nil (h : Hdf5 S V) (vars : List (Variable (List V))) (i : ℤ) :
    outputPerCore h vars i ≠ [] ↔ ∃ v ∈ vars, v.written i ≠ [] := by
  simp only [outputPerCore, ne_eq, List.flatMap_eq_nil_iff, List.mem_filter, List.map_eq_nil_iff,
    Variable.written]
  push Not
  refine exists_congr fun v => ?_
  split_ifs with hw <;> simp [hw]

/-- `IterationIsEmpty` answers, with `false` exactly when `OutputPerCore` has a block to write. -/
def EmptyAgrees (h : Hdf5 S V) (servers : ℕ) (vars : List (Variable (List V))) (iteration : ℤ) :
    Prop :=
  ∃ e, iterationIsEmpty servers vars iteration = some e ∧
    (e = false ↔ outputPerCore h vars iteration ≠ [])

theorem emptyAgrees_iff {H : Type} (h : Hdf5 S V) {servers : ℕ} (hservers : 0 < servers)
    {vars : List (Variable (List V))} (hvars : ∀ v ∈ vars, v.Reachable H) (i : ℤ) :
    EmptyAgrees h servers vars i ↔ FirstFits servers vars i ∧ Agree vars i := by
  have hagree := agree_iff (fun v hv => (hvars v hv).normalised) i
  constructor
  · rintro ⟨e, he, hiff⟩
    have hfits := fits_of_iterationIsEmpty he
    refine ⟨hfits, hagree.mp ?_⟩
    rw [iterationIsEmpty_of_fits hservers hfits, Option.some.injEq] at he
    rw [← outputPerCore_ne_nil h, ← hiff, ← he]
    simp
  · rintro ⟨hfits, h'⟩
    refine ⟨_, iterationIsEmpty_of_fits hservers hfits, ?_⟩
    rw [outputPerCore_ne_nil, ← hagree.mpr h']
    simp

/-- The row of four items, stored at iteration 0 by a variable that does not vary in time. -/
def stored : Variable (List ℕ) :=
  ((Variable.new false (row (0, 0))).attachBlock (some (rowBlock (0, 0)))).1

theorem stored_reachable : stored.Reachable Unit :=
  ⟨false, row (0, 0), [.attachBlock (some (rowBlock (0, 0)))], rfl⟩

theorem emptyAgrees_stored : EmptyAgrees (Hdf5.reference ℕ) 1 [stored] 0 :=
  (emptyAgrees_iff (H := Unit) (Hdf5.reference ℕ) (by decide)
    (by simpa using stored_reachable) 0).mpr ⟨by decide +kernel, .inl rfl⟩

/-- At iteration 1 the block is counted, and there is nothing to write. -/
theorem stored_not_written : ¬ ∀ (vars : List (Variable (List ℕ))) (i : ℤ),
    (∀ v ∈ vars, v.Reachable Unit) → EmptyAgrees (Hdf5.reference ℕ) 1 vars i := by
  intro hall
  obtain ⟨e, he, hiff⟩ := hall [stored] 1 (by simpa using stored_reachable)
  have hfalse : iterationIsEmpty 1 [stored] 1 = some false := by decide +kernel
  obtain rfl := Option.some.inj (hfalse.symm.trans he)
  exact hiff.mp rfl rfl

end HDF5Store
end Damaris
