import Damaris.Lib.CriticalSection
import Damaris.Python.DaskStats

/-!
# Statistics that many clients share

Each dataset is an entry of its own on the scheduler, and a method of `DaskStats` reads and replaces
them one at a time, under a lock that all clients know by its name. The clients' calls may overlap in
any way, and some give up waiting for the lock; these call `release` too, which the scheduler refuses
for a lock that is another client's.
-/
namespace Damaris.DaskStats

open CriticalSection

/-- The datasets on the scheduler whose names begin with `unique_name_str`. -/
@[ext] structure Published where
  count : Option ℕ
  chunks_tup : Option (Option (List ℕ))
  mean : Option NumArray
  M2 : Option NumArray

/-- All datasets of the statistics, or none. -/
def Published.of : Option Datasets → Published
  | none => ⟨none, none, none, none⟩
  | some d => ⟨some d.count, some d.chunks_tup, some d.mean, some d.M2⟩

inductive Failure
  | keyError
  | raised (e : PyError)
  deriving DecidableEq

inductive Call
  | update (newValue : NumArray)
  | returnCount
  | returnMean
  | returnVariance

inductive Value
  | none
  | count (n : ℕ)
  | statistic (r : Result)

abbrev Method := Program Published (Except Failure Value)

/-! ## The operations on the scheduler -/

/-- An exception: the lock is not released. -/
def raise (e : Failure) : Method := .done false (.error e)

/-- `dasklock.release()`, and what the method returns or raises after it. -/
def release (r : Except PyError Value) : Method := .done true (r.mapError .raised)

/-- `self.unique_name_str+'_count' in client.list_datasets()`. -/
def listed (next : Bool → Method) : Method := .op id fun s => next s.count.isSome

/-- `client.datasets[name]`. -/
def get {α : Type} (field : Published → Option α) (next : α → Method) : Method :=
  .op id fun s =>
    match field s with
    | some a => next a
    | none => raise .keyError

/-- `client.unpublish_dataset(name)`. -/
def unpublish (erase : Published → Published) (next : Method) : Method := .op erase fun _ => next

/-- `client.datasets[name] = value`, which a dataset of that name makes fail. -/
def publish {α : Type} (field : Published → Option α) (write : Published → Published)
    (next : Method) : Method :=
  .op (fun s => if (field s).isSome then s else write s) fun s =>
    if (field s).isSome then raise .keyError else next

/-! ## The methods, from `acquire` on -/

/-- The last lines of `save_on_dask`. -/
def publishAll (d : Datasets) (next : Method) : Method :=
  publish Published.count (fun s => { s with count := some d.count }) <|
  publish Published.chunks_tup (fun s => { s with chunks_tup := some d.chunks_tup }) <|
  publish Published.mean (fun s => { s with mean := some d.mean }) <|
  publish Published.M2 (fun s => { s with M2 := some d.M2 }) next

def saveOnDask (d : Datasets) (next : Method) : Method :=
  listed fun
    | true =>
      unpublish (fun s => { s with count := none }) <|
      unpublish (fun s => { s with chunks_tup := none }) <|
      unpublish (fun s => { s with mean := none }) <|
      unpublish (fun s => { s with M2 := none }) <|
      publishAll d next
    | false => publishAll d next

/-- `update` between reading the old datasets and saving the new ones. -/
def updateFrom (newValue : NumArray) (old : Option Datasets) : Method :=
  match update newValue old with
  | .ok d => saveOnDask d (release (.ok .none))
  | .error e => raise (.raised e)

/-- `mean.persist()`, which only arrays have. -/
def persist : Local → Except PyError Result
  | .unbound => .error .unboundLocalError
  | .int _ => .error .attributeError
  | .array a => .ok (.array a)

/-- `return_mean` after the lock is released. -/
def meanOf (count : ℕ) (mean : Local) : Except PyError Result :=
  if count < 2 then fullLikeNan mean else persist mean

/-- `return_variance` after the lock is released. -/
def varianceOf (count : ℕ) (mean M2 : Local) : Except PyError Result :=
  if count < 2 then fullLikeNan mean else divPersist (count - 1) M2

def method : Call → Method
  | .update newValue =>
    listed fun
      | true =>
        get Published.count fun count =>
        get Published.chunks_tup fun chunks_tup =>
        get Published.mean fun mean =>
        get Published.M2 fun M2 => updateFrom newValue (some ⟨count, chunks_tup, mean, M2⟩)
      | false => updateFrom newValue none
  | .returnCount =>
    listed fun
      | true => get Published.count fun count => release (.ok (.count count))
      | false => release (.ok (.count 0))
  | .returnMean =>
    listed fun
      | true =>
        get Published.count fun count =>
        get Published.mean fun mean => release ((meanOf count (.array mean)).map .statistic)
      | false => release ((meanOf 0 (.int 0)).map .statistic)
  | .returnVariance =>
    listed fun
      | true =>
        get Published.count fun count =>
        get Published.M2 fun M2 =>
          release ((varianceOf count .unbound (.array M2)).map .statistic)
      | false => release ((varianceOf 0 (.int 0) (.int 0)).map .statistic)

/-! ## What a call does to all datasets at once -/

/-- `return_mean`, of all datasets. -/
def returnMean (client : Option Datasets) : Except PyError Result :=
  match client with
  | some d => meanOf d.count (.array d.mean)
  | none => meanOf 0 (.int 0)

def spec (client : Option Datasets) : Call → Option Datasets × Bool × Except Failure Value
  | .update newValue =>
    match update newValue client with
    | .ok d => (some d, true, .ok .none)
    | .error e => (client, false, .error (.raised e))
  | .returnCount => (client, true, .ok (.count (returnCount client)))
  | .returnMean => (client, true, ((returnMean client).map .statistic).mapError .raised)
  | .returnVariance => (client, true, ((returnVariance client).map .statistic).mapError .raised)

theorem eval_publishAll (d : Datasets) (next : Method) :
    (publishAll d next).eval (.of none) = next.eval (.of (some d)) := by
  simp [publishAll, publish, Published.of]

theorem eval_saveOnDask (d : Datasets) (next : Method) (client : Option Datasets) :
    (saveOnDask d next).eval (.of client) = next.eval (.of (some d)) := by
  cases client with
  | none => exact eval_publishAll d next
  | some old => exact eval_publishAll d next

theorem eval_updateFrom (newValue : NumArray) (client : Option Datasets) :
    (updateFrom newValue client).eval (.of client) =
      (.of (spec client (.update newValue)).1, (spec client (.update newValue)).2) := by
  rw [updateFrom, spec]
  cases update newValue client with
  | ok d => exact eval_saveOnDask d _ client
  | error e => rfl

/-- A method that runs alone does what the statistics promise. -/
theorem method_refines : Refines method Published.of spec := by
  intro client k
  cases k with
  | update newValue =>
    cases client with
    | none => exact eval_updateFrom newValue none
    | some d => exact eval_updateFrom newValue (some d)
  | _ => cases client <;> rfl

/-! ## Any run -/

section

variable {P : Type*} {calls : List (P × Call)} {shape : List ℕ}

/-- What the calls update the statistics with. -/
def values (calls : List (P × Call)) : List NumArray :=
  calls.filterMap fun
    | (_, .update newValue) => some newValue
    | _ => none

theorem updates_concat (xs : List NumArray) (x : NumArray) :
    updates (xs ++ [x]) = (updates xs).bind fun client => (update x client).map some := by
  rw [updates, List.foldlM_append]
  exact bind_congr fun client => bind_pure _

theorem error_of_update {newValue : NumArray} {client : Option Datasets} {e : PyError}
    (h : update newValue client = .error e) : e = .assertionError := by
  rw [update] at h
  split_ifs at h
  exact (Except.error.inj h).symm

/-- The calls leave what their updates leave, one after another. -/
theorem specAfter_eq (hshape : ∀ x ∈ values calls, x.shape = shape) :
    updates (values calls) = .ok (specAfter spec none calls) := by
  induction calls using List.reverseRecOn with
  | nil => rfl
  | append_singleton calls x ih =>
    obtain ⟨p, k⟩ := x
    have happend : values (calls ++ [(p, k)]) = values calls ++ values [(p, k)] := List.filterMap_append
    have hbefore := ih fun y hy => hshape y (happend ▸ List.mem_append_left _ hy)
    rw [specAfter_concat, happend]
    cases k with
    | update newValue =>
      obtain ⟨client, hupd, hshaped, -⟩ := updates_eq fun y hy =>
        hshape y (happend ▸ List.mem_append_left _ hy)
      obtain rfl := Except.ok.inj (hbefore.symm.trans hupd)
      obtain ⟨d, hd, -⟩ := update_eq hshaped (hshape newValue (happend ▸ by simp [values]))
      have hone : values [(p, Call.update newValue)] = [newValue] := rfl
      have hspec : spec (specAfter spec none calls) (.update newValue) = (some d, true, .ok .none) := by
        rw [spec, hd]
      rw [hone, updates_concat, hbefore, hspec]
      simp [Except.bind, hd, Except.map]
    | _ => simpa [values, spec] using hbefore

theorem mapError_map_eq {r : Except PyError Result} {e : PyError} :
    (r.map Value.statistic).mapError Failure.raised = .error (.raised e) ↔ r = .error e := by
  cases r <;> simp [Except.map, Except.mapError]

theorem meanOf_ne (count : ℕ) (mean : Local) : meanOf count mean ≠ .error .assertionError := by
  rw [meanOf]
  split_ifs <;> cases mean <;> simp [fullLikeNan, persist]

theorem varianceOf_ne (count : ℕ) (mean M2 : Local) :
    varianceOf count mean M2 ≠ .error .assertionError := by
  rw [varianceOf]
  split_ifs
  · cases mean <;> simp [fullLikeNan]
  · cases M2 <;> simp [divPersist]

theorem returnMean_ne (client : Option Datasets) : returnMean client ≠ .error .assertionError := by
  cases client with
  | none => exact meanOf_ne 0 (.int 0)
  | some d => exact meanOf_ne d.count (.array d.mean)

theorem returnVariance_ne (client : Option Datasets) :
    returnVariance client ≠ .error .assertionError := by
  cases client with
  | none => exact varianceOf_ne 0 (.int 0) (.int 0)
  | some d => exact varianceOf_ne d.count .unbound (.array d.M2)

/-- A call keeps the lock when its assertion fails, and then only. -/
theorem released_iff (client : Option Datasets) (k : Call) :
    (spec client k).2.1 = true ↔ (spec client k).2.2 ≠ .error (.raised .assertionError) := by
  cases k with
  | update newValue =>
    rw [spec]
    cases hupd : update newValue client with
    | ok d => simp
    | error e => simp [error_of_update hupd]
  | returnCount => simp [spec]
  | returnMean => exact iff_of_true rfl fun h => returnMean_ne client (mapError_map_eq.mp h)
  | returnVariance => exact iff_of_true rfl fun h => returnVariance_ne client (mapError_map_eq.mp h)

theorem specRelease_iff (client : Option Datasets) (calls : List (P × Call)) :
    SpecRelease spec client calls ↔
      ∀ x ∈ specReplies spec client calls, x.2.2 ≠ .error (.raised .assertionError) := by
  induction calls generalizing client with
  | nil => simp [SpecRelease, specReplies]
  | cons x calls ih => rw [SpecRelease, specReplies, List.forall_mem_cons, ih, released_iff]

variable [DecidableEq P] {s : State P Published (Except Failure Value) Call}

/-- In any run the calls that have returned did what they do one after another, in the order in which
they returned: the datasets are exact for the updates among them, and the lock is lost when an update
of another shape has failed its assertion, and then only. -/
theorem statistics_concurrent {as : List (Action P Call)}
    (hr : StepSystem.run (State.step method) (.initial (.of none)) as = some s) :
    ∃ calls : List (P × Call), s.returned = specReplies spec none calls ∧
      (s.holder = none → s.store = .of (specAfter spec none calls)) ∧
      ((∃ p, s.holder = some p ∧ ∀ k rest, s.phase p ≠ .inside k rest) ↔
        ∃ x ∈ s.returned, x.2.2 = .error (.raised .assertionError)) ∧
      ∀ shape, (∀ x ∈ values calls, x.shape = shape) →
        Exact (values calls) (specAfter spec none calls) := by
  obtain ⟨calls, h⟩ := sequential_of_run method (Published.of none) hr
  obtain ⟨hafter, hreplies, hrelease⟩ := method_refines.sequential none calls
  refine ⟨calls, h.returned.trans hreplies, fun hfree => (h.free hfree).2.trans hafter, ?_,
    fun shape hshape => ?_⟩
  · rw [h.lost_iff, hrelease, specRelease_iff, h.returned, hreplies]
    simp only [not_forall, not_not, exists_prop]
  · obtain ⟨client, hupd, -, -, hmom⟩ := updates_eq hshape
    obtain rfl := Except.ok.inj ((specAfter_eq hshape).symm.trans hupd)
    exact exact_of_moments hmom

end

/-- One client asks for the count while another one is in the middle of its update, and waits. -/
def updateAndCount : List (Action Bool Call) :=
  [.call true (.update ⟨[1], fun _ => 1⟩), .acquire true, .advance true, .call false .returnCount,
    .advance true, .advance true, .advance true, .advance true, .advance true, .advance true,
    .acquire false, .advance false, .advance false, .advance false]

theorem statistics_concurrent_two : ∃ s : State Bool Published (Except Failure Value) Call,
    StepSystem.run (State.step method) (.initial (.of none)) updateAndCount = some s ∧
      (∃ x, s.returned = [x, (false, .returnCount, .ok (.count 1))]) ∧
      ∃ calls : List (Bool × Call), s.returned = specReplies spec none calls ∧
        (s.holder = none → s.store = .of (specAfter spec none calls)) ∧
        ((∃ p, s.holder = some p ∧ ∀ k rest, s.phase p ≠ .inside k rest) ↔
          ∃ x ∈ s.returned, x.2.2 = .error (.raised .assertionError)) ∧
        ∀ shape, (∀ x ∈ values calls, x.shape = shape) →
          Exact (values calls) (specAfter spec none calls) := by
  obtain ⟨s, hs, hreturned⟩ : ∃ s : State Bool Published (Except Failure Value) Call,
      StepSystem.run (State.step method) (.initial (.of none)) updateAndCount = some s ∧
        ∃ x, s.returned = [x, (false, .returnCount, .ok (.count 1))] := ⟨_, rfl, _, rfl⟩
  exact ⟨s, hs, hreturned, statistics_concurrent hs⟩

end Damaris.DaskStats
