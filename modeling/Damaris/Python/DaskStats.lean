import Damaris.Lib.Welford

/-!
# Streaming statistics on Dask arrays

The count, the mean and the squared deviations of all updates are datasets on the scheduler, where
every client finds them. An update, which holds the lock, replaces them. Numbers are exact.
-/
namespace Damaris.DaskStats
open Welford

inductive PyError
  | assertionError
  | unboundLocalError
  | attributeError
  deriving DecidableEq

inductive Dtype
  | int64
  | float64
  deriving DecidableEq

/-- An array of numbers, whose type is `float64` once statistics are computed. -/
@[ext] structure NumArray where
  shape : List ℕ
  value : List ℕ → ℚ

namespace NumArray

def zerosLike (a : NumArray) : NumArray := ⟨a.shape, fun _ => 0⟩

/-- Arithmetic on two arrays of one shape. -/
def zipWith (f : ℚ → ℚ → ℚ) (a b : NumArray) : NumArray :=
  ⟨a.shape, fun i => f (a.value i) (b.value i)⟩

def map (f : ℚ → ℚ) (a : NumArray) : NumArray := ⟨a.shape, fun i => f (a.value i)⟩

end NumArray

/-- What is published under the names that end in `_count`, `_chunks_tup`, `_mean` and `_M2`. -/
@[ext] structure Datasets where
  count : ℕ
  chunks_tup : Option (List ℕ)
  mean : NumArray
  M2 : NumArray

def setChunks (shape : List ℕ) : List ℕ := shape.map fun _ => 1

/-- `update`; `save_on_dask` unpublishes the old datasets, if there are any, before it publishes the
new ones. -/
def update (newValue : NumArray) (client : Option Datasets) : Except PyError Datasets :=
  let old := client.getD ⟨0, none, newValue.zerosLike, newValue.zerosLike⟩
  if newValue.shape ≠ old.mean.shape then .error .assertionError
  else
    let chunks_tup := old.chunks_tup.getD (setChunks newValue.shape)
    let count := old.count + 1
    let delta := newValue.zipWith (· - ·) old.mean
    let mean := old.mean.zipWith (· + ·) (delta.map (· / count))
    let delta2 := newValue.zipWith (· - ·) mean
    let M2 := old.M2.zipWith (· + ·) (delta.zipWith (· * ·) delta2)
    .ok ⟨count, some chunks_tup, mean, M2⟩

/-- Updates from any clients, one after another. -/
def updates (xs : List NumArray) : Except PyError (Option Datasets) :=
  xs.foldlM (fun client x => (update x client).map some) none

def returnCount (client : Option Datasets) : ℕ :=
  match client with
  | some d => d.count
  | none => 0

/-- A local variable of a Python function. -/
inductive Local
  | unbound
  | int (n : ℤ)
  | array (a : NumArray)

/-- What the statistics functions return. -/
inductive Result
  | full (shape : List ℕ) (dtype : Dtype)
  | array (a : NumArray)

/-- `da.full_like(x, float("nan"))`: an array of the shape and the type of `x`. -/
def fullLikeNan : Local → Except PyError Result
  | .unbound => .error .unboundLocalError
  | .int _ => .ok (.full [] .int64)
  | .array a => .ok (.full a.shape .float64)

/-- `(x / n).persist()`, which only arrays have. -/
def divPersist (n : ℕ) : Local → Except PyError Result
  | .unbound => .error .unboundLocalError
  | .int _ => .error .attributeError
  | .array a => .ok (.array (a.map (· / n)))

/-- `return_variance`; where there are datasets, only two of them are read. -/
def returnVariance (client : Option Datasets) : Except PyError Result :=
  let (count, mean, M2) := match client with
    | some d => (d.count, Local.unbound, Local.array d.M2)
    | none => (0, Local.int 0, Local.int 0)
  if count < 2 then fullLikeNan mean else divPersist (count - 1) M2

/-! ## What is promised -/

/-- Integers have no NaN. -/
def Result.IsNan : Result → Prop
  | .full _ dtype => dtype = .float64
  | .array _ => False

/-- The datasets are those of the definitions, at every place of the arrays. -/
structure Exact (xs : List NumArray) (client : Option Datasets) : Prop where
  count_eq : returnCount client = xs.length
  mean_eq : ∀ d, client = some d → ∀ i,
    d.mean.value i = (xs.map fun x => x.value i).sum / xs.length
  m2_eq : ∀ d, client = some d → ∀ i,
    d.M2.value i = (xs.map fun x => (x.value i - d.mean.value i) ^ 2).sum

/-- The sample variance, or an array of NaN where there is none. -/
structure GivesVariance (xs : List NumArray) (client : Option Datasets) : Prop where
  of_two_le : 2 ≤ xs.length → ∃ d a, client = some d ∧ returnVariance client = .ok (.array a) ∧
    ∀ i, a.value i = d.M2.value i / (xs.length - 1)
  of_lt_two : xs.length < 2 → ∃ r, returnVariance client = .ok r ∧ r.IsNan

/-! ## One update -/

variable {shape : List ℕ} {xs ys : List NumArray} {x : NumArray} {client : Option Datasets}

/-- The moments at one place. -/
def moments (client : Option Datasets) (i : List ℕ) : Moments ℚ :=
  match client with
  | some d => ⟨d.count, d.mean.value i, d.M2.value i⟩
  | none => .zero

/-- The datasets fit to arrays of the shape. -/
structure Shaped (shape : List ℕ) (client : Option Datasets) : Prop where
  mean_shape : ∀ d, client = some d → d.mean.shape = shape
  m2_shape : ∀ d, client = some d → d.M2.shape = shape
  chunks : ∀ d, client = some d → d.chunks_tup = some (setChunks shape)

theorem shaped_none : Shaped shape none := by
  constructor <;> rintro d ⟨⟩

/-- An update of the shape never fails and adds one value to the moments of every place. -/
theorem update_eq (h : Shaped shape client) (hx : x.shape = shape) :
    ∃ d, update x client = .ok d ∧ Shaped shape (some d) ∧
      ∀ i, moments (some d) i = (moments client i).push (x.value i) := by
  subst hx
  cases client with
  | none =>
    refine ⟨_, if_neg (not_not_intro rfl), ?_, fun i => rfl⟩
    constructor <;> rintro d ⟨⟩ <;> rfl
  | some old =>
    have hm := h.mean_shape old rfl
    have hM := h.m2_shape old rfl
    have hc := h.chunks old rfl
    refine ⟨_, if_neg (not_not_intro hm.symm), ?_, fun i => rfl⟩
    constructor
    · rintro d ⟨⟩
      exact hm
    · rintro d ⟨⟩
      exact hM
    · rintro d ⟨⟩
      simp [hc]

/-! ## All updates -/

/-- No dataset is published exactly before the first update. -/
theorem updates_eq (hshape : ∀ x ∈ xs, x.shape = shape) :
    ∃ client, updates xs = .ok client ∧ Shaped shape client ∧ (client = none ↔ xs = []) ∧
      ∀ i, moments client i = Moments.ofList (xs.map fun x => x.value i) := by
  induction xs using List.reverseRecOn with
  | nil => exact ⟨none, rfl, shaped_none, by simp, fun i => rfl⟩
  | append_singleton xs x ih =>
    obtain ⟨client, hupd, hshaped, -, hmom⟩ := ih fun y hy => hshape y (by simp [hy])
    obtain ⟨d, hd, hd', hpush⟩ := update_eq hshaped (hshape x (by simp))
    refine ⟨some d, ?_, hd', by simp, fun i => ?_⟩
    · rw [updates] at hupd ⊢
      rw [List.foldlM_append, hupd]
      simp [hd, bind, Except.bind, Except.map, pure, Except.pure]
    · rw [hpush, hmom, Moments.ofList, Moments.ofList, List.map_append, List.foldl_append]
      rfl

/-- Datasets of one shape with the same moments are the same. -/
theorem Shaped.eq_of_moments {client' : Option Datasets} (h : Shaped shape client)
    (h' : Shaped shape client') (hnone : client = none ↔ client' = none)
    (hmom : ∀ i, moments client i = moments client' i) : client = client' := by
  cases client with
  | none => exact (hnone.mp rfl).symm
  | some d =>
    cases client' with
    | none => exact hnone.mpr rfl
    | some d' =>
      have hcount : d.count = d'.count := congrArg Moments.count (hmom [])
      have hmean : d.mean = d'.mean := NumArray.ext
        ((h.mean_shape d rfl).trans (h'.mean_shape d' rfl).symm)
        (funext fun i => congrArg Moments.mean (hmom i))
      have hM2 : d.M2 = d'.M2 := NumArray.ext
        ((h.m2_shape d rfl).trans (h'.m2_shape d' rfl).symm)
        (funext fun i => congrArg Moments.m2 (hmom i))
      have hchunks : d.chunks_tup = d'.chunks_tup :=
        (h.chunks d rfl).trans (h'.chunks d' rfl).symm
      rw [Datasets.ext hcount hchunks hmean hM2]

theorem updates_perm (hshape : ∀ x ∈ xs, x.shape = shape) (h : ys.Perm xs) :
    updates ys = updates xs := by
  obtain ⟨client, hupd, hshaped, hnone, hmom⟩ := updates_eq hshape
  obtain ⟨client', hupd', hshaped', hnone', hmom'⟩ :=
    updates_eq fun x (hx : x ∈ ys) => hshape x (h.mem_iff.mp hx)
  rw [hupd, hupd', hshaped'.eq_of_moments hshaped]
  · rw [hnone, hnone', ← List.length_eq_zero_iff, h.length_eq, List.length_eq_zero_iff]
  · intro i
    rw [hmom, hmom', Moments.ofList_eq_exact, Moments.ofList_eq_exact,
      Moments.exact_perm (h.map _)]

theorem exact_of_moments
    (h : ∀ i, moments client i = Moments.ofList (xs.map fun x => x.value i)) : Exact xs client := by
  have hval (i : List ℕ) : moments client i = Moments.exact (xs.map fun x => x.value i) := by
    rw [h, Moments.ofList_eq_exact]
  constructor
  · have hcount := congrArg Moments.count (hval [])
    cases client <;> simpa [moments, Moments.exact, Moments.zero, returnCount] using hcount
  · rintro d rfl i
    simpa [moments, Moments.exact] using congrArg Moments.mean (hval i)
  · rintro d rfl i
    have hmean : d.mean.value i = (xs.map fun x => x.value i).sum / xs.length := by
      simpa [moments, Moments.exact] using congrArg Moments.mean (hval i)
    simpa [moments, Moments.exact, hmean, Function.comp_def] using congrArg Moments.m2 (hval i)

/-- Without an update there is only an array of integers, and after one the name `mean` has no
value. -/
theorem givesVariance_iff (hcount : returnCount client = xs.length)
    (hnone : client = none ↔ xs = []) : GivesVariance xs client ↔ 2 ≤ xs.length := by
  cases client with
  | none =>
    obtain rfl := hnone.mp rfl
    refine iff_of_false (fun h => ?_) (by simp)
    obtain ⟨r, hr, hnan⟩ := h.of_lt_two (by simp)
    cases hr
    cases hnan
  | some d =>
    have hd : d.count = xs.length := hcount
    constructor
    · intro h
      by_contra hlt
      obtain ⟨r, hr, -⟩ := h.of_lt_two (not_le.mp hlt)
      rw [returnVariance] at hr
      simp only [hd, if_pos (not_le.mp hlt)] at hr
      cases hr
    · intro hle
      refine ⟨fun _ => ⟨d, d.M2.map (· / (d.count - 1 : ℕ)), rfl, ?_, fun i => ?_⟩,
        fun hlt => absurd hle (not_le.mpr hlt)⟩
      · rw [returnVariance]
        simp only [if_neg (not_lt.mpr (hd ▸ hle))]
        rfl
      · rw [hd, NumArray.map, Nat.cast_sub (by omega), Nat.cast_one]

/-- The datasets are exact after any updates of one shape, in any order. The variance is right as
soon as there are two of them, and never before. -/
theorem statistics_exact (hshape : ∀ x ∈ xs, x.shape = shape) :
    ∃ client, updates xs = .ok client ∧ Exact xs client ∧
      (∀ ys : List NumArray, ys.Perm xs → updates ys = .ok client) ∧
      (GivesVariance xs client ↔ 2 ≤ xs.length) := by
  obtain ⟨client, hupd, hshaped, hnone, hmom⟩ := updates_eq hshape
  have hexact := exact_of_moments hmom
  exact ⟨client, hupd, hexact, fun ys h => (updates_perm hshape h).trans hupd,
    givesVariance_iff hexact.count_eq hnone⟩

theorem statistics_exact_two :
    ∃ client, updates [⟨[1], fun _ => 1⟩, ⟨[1], fun _ => 4⟩] = .ok client ∧
      Exact [⟨[1], fun _ => 1⟩, ⟨[1], fun _ => 4⟩] client ∧
      GivesVariance [⟨[1], fun _ => 1⟩, ⟨[1], fun _ => 4⟩] client := by
  have hshape : ∀ x ∈ [(⟨[1], fun _ => 1⟩ : NumArray), ⟨[1], fun _ => 4⟩], x.shape = [1] := by
    simp
  obtain ⟨client, hupd, hexact, -, hvar⟩ := statistics_exact hshape
  exact ⟨client, hupd, hexact, hvar.mpr le_rfl⟩

/-- One update of one number, after which the variance cannot be asked for. -/
theorem variance_not_nan_one :
    ∃ client, updates [⟨[1], fun _ => 1⟩] = .ok client ∧
      returnVariance client = .error .unboundLocalError ∧
      ¬ GivesVariance [⟨[1], fun _ => 1⟩] client := by
  refine ⟨_, rfl, rfl, fun h => ?_⟩
  obtain ⟨r, hr, -⟩ := h.of_lt_two (by simp)
  cases hr

end Damaris.DaskStats
