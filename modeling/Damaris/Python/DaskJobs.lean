import Damaris.Python.DaskArray

/-!
# Scripts that ask for Dask arrays

The scripts of all servers run in step, held together by the gathers and barriers of the calls. What
each call ends with does not depend on how the servers' operations on the scheduler interleave.
-/
namespace Damaris.DaskArray

open Data DaskLayout NestedList PyAction Supersteps

variable {D : Type} {n : ℕ}

/-! ## What the calls should end with -/

/-- The variable that a server has under the name. -/
def Job.find (job : Job n D) (i : Fin n) (varname : String) : Option (ScriptVariable D) :=
  lookUp (job.vars i) job.iteration varname

def Job.has (job : Job n D) (i : Fin n) (varname : String) : Bool := (job.find i varname).isSome

/-- The blocks that a server has of the variable. -/
def Job.blocks (job : Job n D) (i : Fin n) (varname : String) : List (Block D) :=
  match job.find i varname with
  | none => []
  | some v => v.var.blocksByIteration job.iteration

/-- The first call for a variable that is there gets the array, on the first server; all others find
no variable, or the name taken. -/
def replies (has : String → Bool) (data : String → Nested (NdArray D)) (root : Bool) :
    Bool → List String → List (Outcome D)
  | _, [] => []
  | published, varname :: calls =>
    if has varname && !published then
      (if root then .array (data varname) else .none) :: replies has data root true calls
    else .keyError :: replies has data root published calls

/-- The iterations whose names are taken after the calls. -/
def Job.takes (job : Job n D) (i : Fin n) (calls : List String) (taken : List ℤ) : List ℤ :=
  if calls.any (job.has i) then job.iteration :: taken else taken

/-- What the calls of a server's jobs end with. -/
def answers (data : Job n D → String → Nested (NdArray D)) (i : Fin n) :
    List ℤ → List (Job n D) → List (Outcome D)
  | _, [] => []
  | taken, job :: jobs =>
    replies (job.has i) (data job) (decide (i.val = 0)) (decide (job.iteration ∈ taken)) job.calls ++
      answers data i (job.takes i job.calls taken) jobs

/-- The blocks of all servers together are a grid in three dimensions, with each block at the point of
its offsets. -/
structure Gridded (job : Job n D) (varname : String) (axes : List (List ℤ))
    (place : List ℤ → Fin n × Block D) (array : List ℤ → NdArray D) : Prop where
  three : axes.length = 3
  count : 3 ≤ (grid axes).length
  nonempty : ∀ axis ∈ axes, axis ≠ []
  sorted : ∀ axis ∈ axes, axis.Pairwise (· < ·)
  blocks : ((List.finRange n).flatMap fun i => (job.blocks i varname).map fun b => (i, b)).Perm
    ((grid axes).map place)
  offset : ∀ p ∈ grid axes, ∀ v ∈ job.find (place p).1 varname,
    blockOffset v.var.layout.dimensions (place p).2 = p
  array : ∀ p ∈ grid axes, ∀ v ∈ job.find (place p).1 varname,
    returnNpNdarray v.type v.var.layout.dimensions (place p).2 = some (array p)

/-- The blocks can be passed to Python, and those of the variables that are asked for are grids, which
have these arrays in them. -/
structure Job.Sound (job : Job n D) (data : String → Nested (NdArray D)) : Prop where
  passable : ∀ i, ∀ v ∈ job.vars i, v.var.writtenIn job.iteration → Passable job.iteration v
  named : ∀ i, ∀ v ∈ job.vars i, v.name ≠ "iteration"
  calls : "iteration" ∉ job.calls
  gridded : ∀ varname ∈ job.calls, (∃ i, job.has i varname) →
    ∃ axes place array, Gridded job varname axes place array ∧ data varname = arrange axes array

theorem Job.has_eq (job : Job n D) (i j : Fin n) : job.has i = job.has j := by
  funext varname
  have hany : ∀ i, job.has i varname =
      ((job.vars i).map fun v => (v.name, v.var.timeVarying)).any fun x =>
        decide (x.1 = varname) && (x.2 || !decide (job.iteration > 0)) := by
    intro i
    rw [Job.has, Job.find, lookUp, List.any_map, ← List.any_reverse, Bool.eq_iff_iff,
      List.find?_isSome, List.any_eq_true]
    rfl
  rw [hany, hany, job.uniform i j]

/-- The names of these iterations, and no others, are taken on all servers. -/
def Taken (magic : ℕ) (taken : List ℤ) (n : ℕ) (s : Datasets D) : Prop :=
  ∀ (i : Fin n) (iteration : ℤ),
    (s (daskPub i.val iteration magic).chars).isSome ↔ iteration ∈ taken

theorem Taken.publishAll {magic : ℕ} {taken : List ℤ} {s : Datasets D} (h : Taken magic taken n s)
    {iteration : ℤ} (hfree : iteration ∉ taken) (data : Fin n → NumpyData D) :
    Taken magic (iteration :: taken) n
      (publishAll (fun i => (daskPub i.val iteration magic).chars) data s) := by
  have hnone : ∀ i : Fin n, s (daskPub i.val iteration magic).chars = none := by
    intro i
    rw [← Option.not_isSome_iff_eq_none, h i iteration]
    exact hfree
  have hinj := daskPub_injective (n := n) iteration magic
  intro i iteration'
  by_cases hit : iteration' = iteration
  · subst hit
    rw [publishAll_self data hinj hnone i]
    simp
  · rw [publishAll_of_ne hinj hnone fun j heq => hit (daskPub_inj heq).2, h i iteration',
      List.mem_cons, or_iff_right hit]

section

variable {str : VariableDict D → List Char} {magic : ℕ}

theorem quiet_returnDaskArray (rank : ℤ) (dict : IterationDict D) (varname : String)
    {next : Outcome D → Server D} (h : ∀ o, (next o).Quiet) :
    (returnDaskArray str rank magic dict varname next).Quiet := by
  unfold returnDaskArray
  cases dict "iteration" with
  | none => exact h _
  | some iteration =>
    cases dict varname with
    | none => exact h _
    | some entry =>
      cases entry with
      | iteration _ => exact h _
      | dict d => trivial

theorem quiet_proceed {rest : (List (Outcome D) → Server D) → Server D}
    {next : List (Outcome D) → Server D} (h : ∀ os, (next os).Quiet)
    (hrest : ∀ next : List (Outcome D) → Server D, (∀ os, (next os).Quiet) → (rest next).Quiet)
    (o : Outcome D) : (proceed rest next o).Quiet := by
  cases o with
  | raised => exact h _
  | none => exact hrest _ fun os => h _
  | keyError => exact hrest _ fun os => h _
  | array data => exact hrest _ fun os => h _

theorem quiet_runScript (rank : ℤ) (dict : IterationDict D) (calls : List String)
    {next : List (Outcome D) → Server D} (h : ∀ os, (next os).Quiet) :
    (runScript str rank magic dict calls next).Quiet := by
  induction calls generalizing next with
  | nil => exact h []
  | cons varname calls ih =>
    exact quiet_returnDaskArray rank dict varname (quiet_proceed h fun _ hnext => ih hnext)

theorem quiet_server (i : Fin n) (jobs : List (Job n D)) (outcomes : List (Outcome D)) :
    (server str magic i jobs outcomes).Quiet := by
  induction jobs generalizing outcomes with
  | nil => trivial
  | cons job jobs ih =>
    unfold server
    cases passDataToPython i.val job.iteration magic (job.vars i) with
    | none => trivial
    | some dict => exact quiet_runScript _ dict job.calls fun os => ih _

/-- The servers can finish, with these outcomes. -/
def Ends (s : State n (Datasets D) (List Item) (Option (List (Outcome D))))
    (outcomes : Fin n → List (Outcome D)) : Prop :=
  ∃ k ds, Orderly s k ⟨ds, fun i => .done (some (outcomes i))⟩

theorem Taken.congr {taken taken' : List ℤ} {s : Datasets D} (h : Taken magic taken n s)
    (heq : ∀ it, it ∈ taken ↔ it ∈ taken') : Taken magic taken' n s :=
  fun i it => (h i it).trans (heq it)

/-- The lists of all servers together make up the grid. -/
theorem Gridded.laysOut {job : Job n D} {varname : String} {axes : List (List ℤ)}
    {place : List ℤ → Fin n × Block D} {array : List ℤ → NdArray D}
    (h : Gridded job varname axes place array) {v : Fin n → ScriptVariable D}
    (hv : ∀ i, job.find i varname = some (v i)) {d : Fin n → VariableDict D}
    (hd : ∀ i, (d i).sortList = ((v i).var.blocksByIteration job.iteration).map fun b =>
      ⟨daskPub i.val job.iteration magic, blockKey b, blockOffset (v i).var.layout.dimensions b⟩) :
    LaysOut clientName (List.ofFn fun j => (d j).sortList).flatten (arrange axes fun p =>
      (daskPub (place p).1.val job.iteration magic, blockKey (place p).2)) := by
  let item : Fin n × Block D → Item := fun x =>
    ⟨daskPub x.1.val job.iteration magic, blockKey x.2,
      blockOffset (v x.1).var.layout.dimensions x.2⟩
  have hmerged : (List.ofFn fun j => (d j).sortList).flatten =
      ((List.finRange n).flatMap fun i => (job.blocks i varname).map fun b => (i, b)).map item := by
    rw [List.ofFn_eq_map, ← List.flatMap_def, List.map_flatMap]
    refine congrArg (fun f => List.flatMap f (List.finRange n)) (funext fun i => ?_)
    rw [hd i, Job.blocks, hv i, List.map_map]
    rfl
  refine (laysOut_iff h.nonempty h.sorted _ ?_).mpr ⟨h.three, h.count⟩
  rw [hmerged]
  refine (h.blocks.map item).trans (.of_eq ?_)
  rw [List.map_map]
  refine List.map_congr_left fun p hp => ?_
  simp only [Function.comp_apply, item, Item.at, h.offset p hp _ (hv _)]

/-- Each reference leads to the array of its block. -/
theorem Gridded.lookup {job : Job n D} {varname : String} {axes : List (List ℤ)}
    {place : List ℤ → Fin n × Block D} {array : List ℤ → NdArray D}
    (h : Gridded job varname axes place array) {v : Fin n → ScriptVariable D}
    (hv : ∀ i, job.find i varname = some (v i)) {d : Fin n → VariableDict D}
    (hd : ∀ i, ∀ b ∈ (v i).var.blocksByIteration job.iteration, (d i).numpyData (blockKey b).chars =
      returnNpNdarray (v i).type (v i).var.layout.dimensions b) {s : Datasets D}
    (hs : ∀ i : Fin n, s (daskPub i.val job.iteration magic).chars = some (d i).numpyData) :
    ∀ p ∈ grid axes, DaskArray.lookup s (daskPub (place p).1.val job.iteration magic,
      blockKey (place p).2) = some (array p) := by
  intro p hp
  have hplace := h.blocks.mem_iff.mpr (List.mem_map_of_mem hp)
  obtain ⟨i, -, hi⟩ := List.mem_flatMap.mp hplace
  obtain ⟨b, hb, heq⟩ := List.mem_map.mp hi
  have harray := h.array p hp _ (hv _)
  rw [Job.blocks, hv i] at hb
  rw [← heq] at harray ⊢
  rw [DaskArray.lookup, hs i, Option.bind_some, hd i b hb, harray]

/-- What the servers find in a job's dictionaries. -/
def Job.Passed (job : Job n D) (magic : ℕ) (dict : Fin n → IterationDict D) : Prop :=
  ∀ i, dict i "iteration" = some (.iteration job.iteration) ∧
    ∀ varname, varname ≠ "iteration" → dict i varname = (job.find i varname).bind fun v =>
      (passVariable (daskPub i.val job.iteration magic) job.iteration v).map .dict

section

variable {job : Job n D} {varname : String} {dict : Fin n → IterationDict D}
  {next : Fin n → Outcome D → Server D} {s : Datasets D} {outcomes : Fin n → List (Outcome D)}

theorem Ends.absent (hdict : job.Passed magic dict) (hne : varname ≠ "iteration")
    (hfind : ∀ i, job.find i varname = none) (h : Ends ⟨s, fun i => next i .keyError⟩ outcomes) :
    Ends ⟨s, fun i => returnDaskArray str i.val magic (dict i) varname (next i)⟩ outcomes := by
  have hcall : ∀ i, returnDaskArray str i.val magic (dict i) varname (next i) =
      next i .keyError := by
    intro i
    refine returnDaskArray_absent _ (hdict i).1 ?_
    rw [(hdict i).2 varname hne, hfind i, Option.bind_none]
  simpa only [hcall] using h

/-- The variable's dictionary on each server. -/
theorem Job.Passed.variables {data : String → Nested (NdArray D)} (hjob : job.Sound data)
    (hdict : job.Passed magic dict) (hne : varname ≠ "iteration") {v : Fin n → ScriptVariable D}
    (hv : ∀ i, job.find i varname = some (v i)) : ∃ d : Fin n → VariableDict D, ∀ i,
      dict i varname = some (.dict (d i)) ∧
      (d i).sortList = ((v i).var.blocksByIteration job.iteration).map (fun b =>
        ⟨daskPub i.val job.iteration magic, blockKey b,
          blockOffset (v i).var.layout.dimensions b⟩) ∧
      ∀ b ∈ (v i).var.blocksByIteration job.iteration, (d i).numpyData (blockKey b).chars =
        returnNpNdarray (v i).type (v i).var.layout.dimensions b := by
  have hpassable : ∀ i, Passable job.iteration (v i) := by
    intro i
    obtain ⟨hmem, hwritten⟩ := writtenIn_of_lookUp (hv i)
    exact hjob.passable i (v i) hmem hwritten
  choose d hd hlist hdata using fun i : Fin n =>
    passVariable_eq (daskPub i.val job.iteration magic) (hpassable i)
  refine ⟨d, fun i => ⟨?_, hlist i, hdata i⟩⟩
  rw [(hdict i).2 varname hne, hv i, Option.bind_some, hd i, Option.map_some]

theorem Ends.published {data : String → Nested (NdArray D)} (hn : n ≠ 0) (hjob : job.Sound data)
    (hdict : job.Passed magic dict) (hne : varname ≠ "iteration")
    (hquiet : ∀ i o, (next i o).Quiet) (hfind : ∀ i, ∃ v, job.find i varname = some v)
    (hthere : ∀ i : Fin n, (s (daskPub i.val job.iteration magic).chars).isSome)
    (h : Ends ⟨s, fun i => next i .keyError⟩ outcomes) :
    Ends ⟨s, fun i => returnDaskArray str i.val magic (dict i) varname (next i)⟩ outcomes := by
  choose v hv using hfind
  obtain ⟨d, hd⟩ := hdict.variables hjob hne hv
  obtain ⟨m, ds, hrest⟩ := h
  unfold Ends
  exact (orderly_published hn hquiet (fun i => (hdict i).1) (fun i => (hd i).1) hthere hrest).imp
    fun k hk => ⟨ds, hk⟩

/-- The names are free: the first server gets the array. -/
theorem Ends.fresh {data : String → Nested (NdArray D)} {taken : List ℤ} (hn : n ≠ 0)
    (hjob : job.Sound data) (hdict : job.Passed magic dict) (hne : varname ≠ "iteration")
    (hcall : varname ∈ job.calls) (hquiet : ∀ i o, (next i o).Quiet)
    (hfind : ∀ i, ∃ v, job.find i varname = some v) (htaken : Taken magic taken n s)
    (hfree : job.iteration ∉ taken)
    (h : ∀ s', Taken magic (job.iteration :: taken) n s' →
      Ends ⟨s', fun i => next i (if i.val = 0 then .array (data varname) else .none)⟩ outcomes) :
    Ends ⟨s, fun i => returnDaskArray str i.val magic (dict i) varname (next i)⟩ outcomes := by
  have hroot : Fin n := ⟨0, Nat.pos_of_ne_zero hn⟩
  choose v hv using hfind
  obtain ⟨d, hd⟩ := hdict.variables hjob hne hv
  obtain ⟨axes, place, array, hgrid, hdata⟩ := hjob.gridded varname hcall
    ⟨hroot, by rw [Job.has, hv]; rfl⟩
  have hnone : ∀ i : Fin n, s (daskPub i.val job.iteration magic).chars = none := by
    intro i
    rw [← Option.not_isSome_iff_eq_none, htaken i job.iteration]
    exact hfree
  have hlookup := hgrid.lookup hv (fun i => (hd i).2.2)
    (publishAll_self (fun i => (d i).numpyData) (daskPub_injective job.iteration magic) hnone)
  obtain ⟨m, ds, hrest⟩ := h _ (htaken.publishAll hfree fun i => (d i).numpyData)
  rw [hdata] at hrest
  unfold Ends
  exact (orderly_fresh hn hquiet (fun i => (hdict i).1) (fun i => (hd i).1) hnone
    (hgrid.laysOut hv fun i => (hd i).2.1) hlookup hrest).imp fun k hk => ⟨ds, hk⟩

end

/-- After a call that fails, the names are as they were. -/
theorem replies_keyError {has : String → Bool} {data : String → Nested (NdArray D)} {root : Bool}
    {published : Bool} {varname : String} {calls : List String}
    (h : (has varname && !published) = false) :
    replies has data root published (varname :: calls) =
      .keyError :: replies has data root published calls := by
  rw [replies, h]
  rfl

/-- The calls of one job. The induction is on the calls; before each the names are taken, or not, on
all servers. -/
theorem ends_runScript {job : Job n D} {data : String → Nested (NdArray D)} (hn : n ≠ 0)
    (hjob : job.Sound data) {dict : Fin n → IterationDict D} (hdict : job.Passed magic dict)
    {calls : List String} (hcalls : ∀ c ∈ calls, c ∈ job.calls) {taken : List ℤ} {s : Datasets D}
    (htaken : Taken magic taken n s) {next : Fin n → List (Outcome D) → Server D}
    (hquiet : ∀ i os, (next i os).Quiet) {outcomes : Fin n → List (Outcome D)} (r : Fin n)
    (hrest : ∀ s', Taken magic (job.takes r calls taken) n s' →
      Ends ⟨s', fun i => next i (replies (job.has i) data (decide (i.val = 0))
        (decide (job.iteration ∈ taken)) calls)⟩ outcomes) :
    Ends ⟨s, fun i => runScript str i.val magic (dict i) calls (next i)⟩ outcomes := by
  induction calls generalizing taken s next with
  | nil => exact hrest s htaken
  | cons varname calls ih =>
    obtain ⟨hcall, hcalls⟩ := List.forall_mem_cons.mp hcalls
    have hne : varname ≠ "iteration" := fun h => hjob.calls (h ▸ hcall)
    have hquiet' : ∀ i o, Program.Quiet
        (proceed (runScript str i.val magic (dict i) calls) (next i) o) := fun i =>
      quiet_proceed (hquiet i) fun _ => quiet_runScript _ _ _
    -- a call that fails leaves the names, and the other calls go on
    have hfail : (job.has r varname && !decide (job.iteration ∈ taken)) = false →
        Ends ⟨s, fun i => runScript str i.val magic (dict i) calls fun os =>
          next i (.keyError :: os)⟩ outcomes := by
      intro hno
      refine ih hcalls htaken (fun i os => hquiet i _) fun s' hs' => ?_
      have hend := hrest s' (hs'.congr fun it => ?_)
      · simpa only [job.has_eq _ r, replies_keyError hno] using hend
      · rw [Job.takes, Job.takes, List.any_cons]
        cases hhas : job.has r varname with
        | false => rw [Bool.false_or]
        | true =>
          rw [hhas, Bool.true_and, Bool.not_eq_false', decide_eq_true_eq] at hno
          rw [Bool.true_or, if_pos rfl]
          split_ifs
          · rfl
          · exact ⟨List.mem_cons_of_mem _, fun h => (List.mem_cons.mp h).elim (· ▸ hno) id⟩
    cases hhas : job.has r varname with
    | false =>
      have hfind : ∀ i, job.find i varname = none := by
        intro i
        rw [job.has_eq r i] at hhas
        exact Option.isSome_eq_false_iff.mp hhas |> Option.isNone_iff_eq_none.mp
      exact .absent hdict hne hfind (hfail (by rw [hhas, Bool.false_and]))
    | true =>
      have hfind : ∀ i, ∃ v, job.find i varname = some v := by
        intro i
        rw [job.has_eq r i] at hhas
        exact Option.isSome_iff_exists.mp hhas
      by_cases hit : job.iteration ∈ taken
      · exact .published hn hjob hdict hne hquiet' hfind (fun i => (htaken i _).mpr hit)
          (hfail (by simp [hit]))
      · refine .fresh hn hjob hdict hne hcall hquiet' hfind htaken hit fun s' hs' => ?_
        have hproceed : ∀ i : Fin n, proceed (runScript str i.val magic (dict i) calls) (next i)
            (if i.val = 0 then .array (data varname) else .none) =
              runScript str i.val magic (dict i) calls fun os =>
                next i ((if i.val = 0 then .array (data varname) else .none) :: os) := by
          intro i
          by_cases hi : i.val = 0
          · simp only [if_pos hi, proceed]
          · simp only [if_neg hi, proceed]
        simp only [hproceed]
        refine ih hcalls hs' (fun i os => hquiet i _) fun s'' hs'' => ?_
        have hend := hrest s'' (hs''.congr fun it => ?_)
        · have hreplies : ∀ i : Fin n, replies (job.has i) data (decide (i.val = 0))
              (decide (job.iteration ∈ taken)) (varname :: calls) =
                (if i.val = 0 then .array (data varname) else .none) ::
                  replies (job.has i) data (decide (i.val = 0)) true calls := by
            intro i
            rw [replies, job.has_eq i r, hhas, decide_eq_false hit]
            simp
          simpa only [hreplies, List.mem_cons_self, decide_true] using hend
        · rw [Job.takes, Job.takes, List.any_cons, hhas, Bool.true_or, if_pos rfl]
          split_ifs
          · exact ⟨fun h => (List.mem_cons.mp h).elim (fun h => h ▸ List.mem_cons_self) id,
              List.mem_cons_of_mem _⟩
          · rfl

/-- All jobs. -/
theorem ends_server {data : Job n D → String → Nested (NdArray D)} (hn : n ≠ 0)
    {jobs : List (Job n D)} (hjobs : ∀ job ∈ jobs, job.Sound (data job)) {taken : List ℤ}
    {s : Datasets D} (htaken : Taken magic taken n s) (outcomes : Fin n → List (Outcome D)) :
    Ends ⟨s, fun i => server str magic i jobs (outcomes i)⟩
      fun i => outcomes i ++ answers data i taken jobs := by
  induction jobs generalizing taken s outcomes with
  | nil =>
    simp only [answers, List.append_nil]
    exact ⟨0, s, .finished fun i => ⟨_, rfl⟩⟩
  | cons job jobs ih =>
    obtain ⟨hjob, hjobs⟩ := List.forall_mem_cons.mp hjobs
    have hr : 0 < n := Nat.pos_of_ne_zero hn
    choose dict hpass hdict using fun i : Fin n =>
      passDataToPython_eq i.val magic (hjob.passable i) (hjob.named i)
    simp only [server, hpass]
    refine ends_runScript hn hjob (fun i => hdict i) (fun c hc => hc) htaken
      (fun i os => quiet_server i jobs _) ⟨0, hr⟩ fun s' hs' => ?_
    have hrest := ih hjobs hs' fun i => outcomes i ++ replies (job.has i) (data job)
      (decide (i.val = 0)) (decide (job.iteration ∈ taken)) job.calls
    have htakes : ∀ i, job.takes i job.calls taken = job.takes ⟨0, hr⟩ job.calls taken := by
      intro i
      rw [Job.takes, Job.takes, job.has_eq i]
    simpa only [answers, ← List.append_assoc, htakes] using hrest

end

def cubeBlock (source z : ℤ) : Block ℕ where
  source := source
  iteration := 0
  id := 0
  lowerBounds := [0, 0, z]
  upperBounds := [1, 1, z + 1]
  globalDims := [2, 2, 6]
  ghosts := [(0, 0), (0, 0), (0, 0)]
  dataspace := some z.toNat
  readOnly := true

def cube (blocks : KeyedStore (Block.key : Block ℕ → ℤ × ℤ × ℤ)) : ScriptVariable ℕ :=
  ⟨"cube", .double_, ⟨true, ⟨8, List.replicate 3 ⟨2, 2, (0, 0)⟩⟩, fun _ => none, blocks⟩⟩

def cubeJob : Job 2 ℕ where
  iteration := 0
  vars := ![[cube ⟨[cubeBlock 0 0, cubeBlock 1 4], by decide⟩], [cube ⟨[cubeBlock 2 2], by decide⟩]]
  calls := ["cube", "cube"]
  uniform := by decide

def cubePlace (p : List ℤ) : Fin 2 × Block ℕ :=
  if p.getD 2 0 = 0 then (⟨0, Nat.zero_lt_two⟩, cubeBlock 0 0)
  else if p.getD 2 0 = 2 then (⟨1, Nat.one_lt_two⟩, cubeBlock 2 2)
  else (⟨0, Nat.zero_lt_two⟩, cubeBlock 1 4)

def cubeArray (p : List ℤ) : NdArray ℕ :=
  ⟨.double, [2, 2, 2], [32, 16, 8], (cubePlace p).2.dataspace⟩

theorem cube_gridded : Gridded cubeJob "cube" [[0], [0], [0, 2, 4]] cubePlace cubeArray where
  three := rfl
  count := by decide
  nonempty := by decide
  sorted := by decide
  blocks := by decide +kernel
  offset := by decide +kernel
  array := by decide +kernel

theorem cube_sound : cubeJob.Sound fun _ => arrange [[0], [0], [0, 2, 4]] cubeArray where
  passable i v hv _ _ := by
    have hcube : v.type = .double_ ∧ v.var.layout.dimensions = 3 := by
      fin_cases i <;> obtain rfl := List.mem_singleton.mp hv <;> exact ⟨rfl, rfl⟩
    rw [hcube.1, hcube.2]
    exact ⟨rfl, by decide⟩
  named i v hv := by
    fin_cases i <;> obtain rfl := List.mem_singleton.mp hv <;> decide
  calls := by decide
  gridded varname hcall _ := by
    have hname : varname = "cube" := by simpa [cubeJob] using hcall
    exact hname ▸ ⟨_, _, _, cube_gridded, rfl⟩

/-- The second call finds the name of the iteration taken. -/
example (x : Nested (NdArray ℕ)) : answers (fun _ _ => x) 0 [] [cubeJob] = [.array x, .keyError] := by
  rfl

end Damaris.DaskArray
