import Damaris.Storage.FileNames
import Damaris.Server.Residency

/-!
# The files that a simulation leaves

At the end of an iteration every server outputs to all its stores, with `H5Fcreate` in place of what
was there under a file's name. Whatever the order in which the servers come to it, every block that
a client has written stands in the end as a dataset in one of the files, and nothing else does.
-/
namespace Damaris

open Data

namespace HDF5Store

variable {D : Type*}

/-- A store in the mode `FilePerCore`, with its variables and their names. -/
structure PerCoreStore where
  path : String
  vars : List (ℤ × String)
  deriving DecidableEq

/-- What the outputs of all servers ask the `Environment` for. -/
structure Settings where
  servers : ℕ
  numDomains : ℤ
  simulationName : String

/-- The files, by their names, with their datasets. -/
abbrev Files (D : Type*) := String → Option (List (String × Block D))

/-- A call of `StorageManager::Update` on a server. -/
structure Update (D : Type*) where
  processId : ℤ
  iteration : ℤ
  vars : Variables D

namespace PerCoreStore

/-- What the weak pointers to the variables lead to. -/
def getVariables (st : PerCoreStore) (vs : Variables D) : List (String × Variable D) :=
  st.vars.filterMap fun x => (vs x.1).map fun v => (x.2, v)

def fileName (st : PerCoreStore) (e : Settings) (iteration processId : ℤ) : String :=
  getOutputFileName ⟨.FilePerCore, st.path⟩ e.simulationName iteration processId

/-- `Output`; `none` when a number of blocks is no `int`. -/
def output (st : PerCoreStore) (e : Settings) (u : Update D) (files : Files D) : Option (Files D) :=
  let vars := st.getVariables u.vars
  (Store.iterationIsEmpty e.servers (vars.map Prod.snd) u.iteration).map fun empty =>
    if empty then files
    else Function.update files (st.fileName e u.iteration u.processId)
      (some (fileOf e.numDomains vars u.iteration))

/-- The store has something to output. -/
def Outputs (st : PerCoreStore) (u : Update D) : Prop :=
  ∃ v ∈ (st.getVariables u.vars).map Prod.snd, v.counted u.iteration ≠ []

instance (st : PerCoreStore) (u : Update D) : Decidable (st.Outputs u) :=
  inferInstanceAs (Decidable (∃ v ∈ (st.getVariables u.vars).map Prod.snd, v.counted u.iteration ≠ []))

/-- The first number of blocks that is not zero is an `int` when taken for all servers. -/
def Fits (st : PerCoreStore) (e : Settings) (u : Update D) : Prop :=
  Store.FirstFits e.servers ((st.getVariables u.vars).map Prod.snd) u.iteration

theorem mem_getVariables {st : PerCoreStore} {vs : Variables D} {v : String × Variable D} :
    v ∈ st.getVariables vs ↔ ∃ x ∈ st.vars, vs x.1 = some v.2 ∧ x.2 = v.1 := by
  simp only [getVariables, List.mem_filterMap, Option.map_eq_some_iff]
  constructor
  · rintro ⟨x, hx, w, hw, rfl⟩
    exact ⟨x, hx, hw, rfl⟩
  · rintro ⟨x, hx, hv, hname⟩
    exact ⟨x, hx, v.2, hv, by rw [hname]⟩

/-- No weak pointer has expired. -/
theorem names_getVariables {st : PerCoreStore} {vs : Variables D} (h : ∀ x ∈ st.vars, (vs x.1).isSome) :
    (st.getVariables vs).map Prod.fst = st.vars.map Prod.snd := by
  rw [getVariables, List.map_filterMap, ← List.filterMap_eq_map]
  refine List.filterMap_congr fun x hx => ?_
  obtain ⟨v, hv⟩ := Option.isSome_iff_exists.mp (h x hx)
  rw [hv]
  rfl

theorem output_eq (st : PerCoreStore) (e : Settings) (u : Update D) (files : Files D)
    (hservers : 0 < e.servers) (hfits : st.Fits e u) :
    st.output e u files = some (if st.Outputs u then
      Function.update files (st.fileName e u.iteration u.processId)
        (some (fileOf e.numDomains (st.getVariables u.vars) u.iteration)) else files) := by
  rw [output, Store.iterationIsEmpty_of_fits hservers hfits, Option.map_some]
  have hdecide : decide (∃ v ∈ (st.getVariables u.vars).map Prod.snd, v.counted u.iteration ≠ []) =
      decide (st.Outputs u) := rfl
  rw [hdecide]
  by_cases h : st.Outputs u <;> simp [h]

end PerCoreStore

/-- `StorageManager::Update`. -/
def update (e : Settings) (stores : List PerCoreStore) (files : Files D) (u : Update D) :
    Option (Files D) :=
  stores.foldlM (fun files st => st.output e u files) files

/-- The calls of `Output` that updates make. -/
def calls (stores : List PerCoreStore) (us : List (Update D)) : List (Update D × PerCoreStore) :=
  us.flatMap fun u => stores.map fun st => (u, st)

/-- What calls of `Output` leave, in the order in which they are made. -/
def outputs (e : Settings) (cs : List (Update D × PerCoreStore)) (files : Files D) : Option (Files D) :=
  cs.foldlM (fun files x => x.2.output e x.1 files) files

theorem foldlM_update (e : Settings) (stores : List PerCoreStore) (us : List (Update D)) (files : Files D) :
    us.foldlM (update e stores) files = outputs e (calls stores us) files := by
  induction us generalizing files with
  | nil => rfl
  | cons u us ih =>
    rw [outputs, calls, List.flatMap_cons, List.foldlM_append, List.foldlM_cons, List.foldlM_map]
    exact bind_congr fun files => ih files

/-! ## Writes under distinct names -/

/-- What is found after writes under names that are all distinct, some of which are left out. -/
theorem foldl_write_eq_some_iff {ω κ β : Type*} [DecidableEq κ] (key : ω → κ) (val : ω → β)
    (on : ω → Prop) [DecidablePred on] {ws : List ω} (hws : ws.Pairwise fun w w' => key w ≠ key w')
    (m : κ → Option β) (k : κ) (x : β) :
    ws.foldl (fun m w => if on w then Function.update m (key w) (some (val w)) else m) m k = some x ↔
      (∃ w ∈ ws, on w ∧ key w = k ∧ val w = x) ∨ m k = some x ∧ ∀ w ∈ ws, on w → key w ≠ k := by
  induction ws generalizing m with
  | nil => simp
  | cons w ws ih =>
    obtain ⟨hw, hws⟩ := List.pairwise_cons.mp hws
    rw [List.foldl_cons, ih hws]
    by_cases hon : on w
    · rw [if_pos hon]
      by_cases hk : key w = k
      · subst hk
        have hnot : ∀ w' ∈ ws, ¬ (on w' ∧ key w' = key w ∧ val w' = x) := fun w' hw' h =>
          hw w' hw' h.2.1.symm
        rw [Function.update_self, Option.some_inj]
        constructor
        · rintro (⟨w', hw', h⟩ | ⟨hval, -⟩)
          · exact absurd h (hnot w' hw')
          · exact .inl ⟨w, List.mem_cons_self, hon, rfl, hval⟩
        · rintro (⟨w', hw', h⟩ | ⟨-, h⟩)
          · rcases List.mem_cons.mp hw' with rfl | hw'
            · exact .inr ⟨h.2.2, fun w'' hw'' _ => (hw w'' hw'').symm⟩
            · exact absurd h (hnot w' hw')
          · exact absurd rfl (h w List.mem_cons_self hon)
      · rw [Function.update_of_ne (Ne.symm hk)]
        simp [hk]
    · rw [if_neg hon]
      simp [hon]

theorem outputs_eq (e : Settings) {cs : List (Update D × PerCoreStore)} (hservers : 0 < e.servers)
    (hfits : ∀ x ∈ cs, x.2.Fits e x.1)
    (files : Files D) :
    outputs e cs files = some (cs.foldl (fun files x => if x.2.Outputs x.1 then
      Function.update files (x.2.fileName e x.1.iteration x.1.processId)
        (some (fileOf e.numDomains (x.2.getVariables x.1.vars) x.1.iteration)) else files) files) := by
  induction cs generalizing files with
  | nil => rfl
  | cons x cs ih =>
    have hx := x.2.output_eq e x.1 files hservers (hfits x List.mem_cons_self)
    rw [outputs, List.foldlM_cons, hx, List.foldl_cons]
    exact ih (fun y hy => hfits y (List.mem_cons_of_mem x hy)) _

/-- No two calls are of one store for one iteration of one server. -/
def Distinct (cs : List (Update D × PerCoreStore)) : Prop :=
  cs.Pairwise fun x y => ¬ (x.2.path = y.2.path ∧ x.1.iteration = y.1.iteration ∧
    x.1.processId = y.1.processId)

/-- No file is written twice: what is left are all the files that were written. -/
theorem outputs_of_distinct (e : Settings) {cs : List (Update D × PerCoreStore)} (hservers : 0 < e.servers)
    (hfits : ∀ x ∈ cs, x.2.Fits e x.1) (hcs : Distinct cs) :
    ∃ files, outputs e cs (fun _ => none) = some files ∧ ∀ f file, files f = some file ↔
      ∃ x ∈ cs, x.2.Outputs x.1 ∧ x.2.fileName e x.1.iteration x.1.processId = f ∧
        fileOf e.numDomains (x.2.getVariables x.1.vars) x.1.iteration = file := by
  refine ⟨_, outputs_eq e hservers hfits _, fun f file => ?_⟩
  rw [foldl_write_eq_some_iff (fun x => x.2.fileName e x.1.iteration x.1.processId)
    (fun x => fileOf e.numDomains (x.2.getVariables x.1.vars) x.1.iteration)
    (fun x => x.2.Outputs x.1) (hcs.imp ?_)]
  · simp
  · intro x y hne heq
    have hx : Options.fileMode ⟨.FilePerCore, x.2.path⟩ ≠ .FilePerNode := nofun
    have hy : Options.fileMode ⟨.FilePerCore, y.2.path⟩ ≠ .FilePerNode := nofun
    obtain ⟨-, hpath, hit, hpr⟩ := (getOutputFileName_eq_iff hx hy ..).mp heq
    exact hne ⟨hpath, hit, hpr rfl⟩

end HDF5Store

namespace Iteration

open Msg Comm HDF5Store

variable {c : Topology} {m : ℕ} {G : Type*} {config : ℤ → Option (Bool × Layout)}

namespace State

variable {s s' : State c m G} {source : Peer c m ↪ ℤ}

/-! ## What the files hold -/

/-- The calls of `Output` that the servers have made so far. -/
def calls (s : State c m G) (stores : List PerCoreStore) : List (Update G × PerCoreStore) :=
  (List.finRange c.size).flatMap fun p =>
    HDF5Store.calls stores ((s.servers p).updates.map fun u => ⟨p.val, u.1, u.2⟩)

theorem mem_calls {stores : List PerCoreStore} {x : Update G × PerCoreStore} :
    x ∈ s.calls stores ↔ ∃ p, ∃ u ∈ (s.servers p).updates, ∃ st ∈ stores,
      (⟨p.val, u.1, u.2⟩, st) = x := by
  simp [calls, HDF5Store.calls]

theorem distinct_calls {stores : List PerCoreStore} (hc : s.Consistent)
    (hpaths : stores.Pairwise fun st st' => st.path ≠ st'.path) : Distinct (s.calls stores) := by
  simp only [Distinct, calls, HDF5Store.calls, List.pairwise_flatMap, List.pairwise_map]
  refine ⟨fun p _ => ⟨fun u _ => hpaths.imp fun hne h => hne h.1, ?_⟩, ?_⟩
  · -- a server processes every iteration once
    rw [List.pairwise_iff_getElem]
    intro j k hj hk hjk x hx y hy h
    obtain ⟨st, -, rfl⟩ := List.mem_map.mp hx
    obtain ⟨st', -, rfl⟩ := List.mem_map.mp hy
    have hj' := (hc p j _ (List.getElem?_eq_getElem hj)).1
    have hk' := (hc p k _ (List.getElem?_eq_getElem hk)).1
    have heq : (s.servers p).updates[j].1 = (s.servers p).updates[k].1 := h.2.1
    omega
  · refine (List.nodup_finRange c.size).imp fun hne x hx y hy h => hne (Fin.ext ?_)
    simp only [List.mem_flatMap, List.mem_map] at hx hy
    obtain ⟨_, ⟨u, -, rfl⟩, st, -, rfl⟩ := hx
    obtain ⟨_, ⟨u', -, rfl⟩, st', -, rfl⟩ := hy
    exact Int.ofNat.inj h.2.2

/-- The files hold a dataset for every block that a client has written in an iteration that its
server has processed, and nothing else; no dataset is in the way of another one. -/
structure Kept (config : ℤ → Option (Bool × Layout)) (e : Settings) (stores : List PerCoreStore)
    (s : State c m G) (files : Files G) : Prop where
  complete : ∀ p i, ∀ j < (s.servers p).updates.length, ∀ st ∈ stores, ∀ x ∈ st.vars, ∀ l bid wr,
    config x.1 = some (true, l) → published (s.sent (p, i)) x.1 j bid = some wr →
      ∃ file b, files (st.fileName e j p.val) = some file ∧
        (getVariableFullName .FilePerCore e.numDomains x.2 (some b), b) ∈ file ∧
          plain b = made l (s.clients (p, i)).source wr
  sound : ∀ f file, files f = some file → ∃ p, ∃ j < (s.servers p).updates.length, ∃ st ∈ stores,
    st.fileName e j p.val = f ∧ ∀ d ∈ file, ∃ i, ∃ x ∈ st.vars, ∃ l bid wr,
      config x.1 = some (true, l) ∧ published (s.sent (p, i)) x.1 j bid = some wr ∧
        d.1 = getVariableFullName .FilePerCore e.numDomains x.2 (some d.2) ∧
          plain d.2 = made l (s.clients (p, i)).source wr
  apart : ∀ f file, files f = some file → file.Pairwise fun d d' => ¬ Clash d.1 d'.1

/-- What an update of a server finds in a variable of a store. -/
theorem CutInv.variable (hcut : s.CutInv config source) {numDomains : ℤ}
    (hb : s.Bounded config numDomains) {p : c.Rank} {j : ℕ} {u : ℤ × Variables G}
    (hu : (s.servers p).updates[j]? = some u) {id : ℤ} {l : Layout} (hl : config id = some (true, l)) :
    ∃ v, u.2 id = some v ∧ v.timeVarying = true ∧ v.layout = l ∧
      Sees (fun i => source (p, i)) (fun i => s.sent (p, i)) j id v := by
  have hconf := hb.updates p u (List.mem_of_getElem? hu) id
  rw [hl, Option.map_eq_some_iff] at hconf
  obtain ⟨v, hv, hx⟩ := hconf
  obtain ⟨htv, hlayout⟩ := Prod.mk.inj hx
  exact ⟨v, hv, htv, hlayout, (hcut.consistent p j u hu).2 id v hv htv⟩

/-- All datasets of an update's file are created. -/
theorem CutInv.fileOf_eq (hcut : s.CutInv config source) {numDomains : ℤ}
    (hb : s.Bounded config numDomains) {p : c.Rank} {j : ℕ} {u : ℤ × Variables G}
    (hu : (s.servers p).updates[j]? = some u) {st : PerCoreStore}
    (hvarying : ∀ x ∈ st.vars, ∃ l, config x.1 = some (true, l))
    (hnames : DistinctNames (st.vars.map Prod.snd)) :
    fileOf numDomains (st.getVariables u.2) j = datasets numDomains (st.getVariables u.2) j ∧
      (datasets numDomains (st.getVariables u.2) j).Pairwise fun d d' => ¬ Clash d.1 d'.1 := by
  have hsome : ∀ x ∈ st.vars, (u.2 x.1).isSome := by
    intro x hx
    obtain ⟨l, hl⟩ := hvarying x hx
    obtain ⟨v, hv, -⟩ := hcut.variable hb hu hl
    rw [hv, Option.isSome_some]
  have hseparate : Separate numDomains (st.getVariables u.2) (j : ℤ) := by
    refine separate_of_distinctNames ?_ ?_
    · rwa [PerCoreStore.names_getVariables hsome]
    · intro hone v hv b hbw
      -- the only domain is number 0
      obtain ⟨x, hx, hxv, -⟩ := PerCoreStore.mem_getVariables.mp hv
      obtain ⟨l, hl⟩ := hvarying x hx
      obtain ⟨w, hw, htv, -, hsees⟩ := hcut.variable hb hu hl
      obtain rfl := Option.some.inj (hxv.symm.trans hw)
      rw [Variable.written_of_timeVarying htv, Variable.counted, Variable.normalise, if_pos htv,
        Variable.blocksByIteration] at hbw
      obtain ⟨hmem, hit⟩ := List.mem_filter.mp hbw
      obtain ⟨i, wr, hwr, hmade⟩ := hsees.written b hmem (of_decide_eq_true hit)
      have hdomain := inDomains_of_published (hb.domains (p, i)) hwr
      have hid : b.id = wr.block := congrArg Block.id hmade
      omega
  have hpairwise := hseparate.pairwise
  exact ⟨(fileOf_eq_datasets ..).mpr hpairwise, hpairwise⟩

theorem CutInv.kept (hcut : s.CutInv config source) {e : Settings} (hb : s.Bounded config e.numDomains)
    {stores : List PerCoreStore} (hvarying : ∀ st ∈ stores, ∀ x ∈ st.vars, ∃ l, config x.1 = some (true, l))
    (hnames : ∀ st ∈ stores, DistinctNames (st.vars.map Prod.snd)) {files : Files G}
    (hfiles : ∀ f file, files f = some file ↔ ∃ x ∈ s.calls stores, x.2.Outputs x.1 ∧
      x.2.fileName e x.1.iteration x.1.processId = f ∧
        fileOf e.numDomains (x.2.getVariables x.1.vars) x.1.iteration = file) :
    s.Kept config e stores files := by
  have hwritten : ∀ {v : Variable G} {j : ℤ} {b : Block G}, v.timeVarying = true →
      (b ∈ v.written j ↔ b ∈ v.blocks ∧ b.iteration = j) := by
    intro v j b htv
    rw [Variable.written_of_timeVarying htv, Variable.counted, Variable.normalise, if_pos htv,
      Variable.blocksByIteration, List.mem_filter, decide_eq_true_eq]
    rfl
  -- a file is that of one update and one store
  have hsource : ∀ f file, files f = some file → ∃ p, ∃ j : ℕ, ∃ u, (s.servers p).updates[j]? = some u ∧
      ∃ st ∈ stores, st.fileName e j p.val = f ∧ file = datasets e.numDomains (st.getVariables u.2) j ∧
        file.Pairwise fun d d' => ¬ Clash d.1 d'.1 := by
    intro f file hf
    obtain ⟨x, hx, -, hname, hfile⟩ := (hfiles f file).mp hf
    obtain ⟨p, u, hu, st, hst, rfl⟩ := mem_calls.mp hx
    obtain ⟨j, hj⟩ := List.getElem?_of_mem hu
    have hju := (hcut.consistent p j u hj).1
    obtain ⟨hall, hapart⟩ := hcut.fileOf_eq hb hj (hvarying st hst) (hnames st hst)
    simp only [hju] at hname hfile
    exact ⟨p, j, u, hj, st, hst, hname, hfile.symm.trans hall, hfile ▸ hall ▸ hapart⟩
  refine ⟨fun p i j hj st hst x hx l bid wr hl hwr => ?_, fun f file hf => ?_, fun f file hf => ?_⟩
  · obtain ⟨u, hu⟩ : ∃ u, (s.servers p).updates[j]? = some u := ⟨_, List.getElem?_eq_getElem hj⟩
    obtain ⟨v, hv, htv, rfl, hsees⟩ := hcut.variable hb hu hl
    obtain ⟨b, hbv, hmade⟩ := hsees.complete i bid wr hwr
    have hit : b.iteration = j :=
      (congrArg Block.iteration hmade : b.iteration = wr.iteration).trans (mem_of_published hwr).2
    have hju := (hcut.consistent p j u hu).1
    have hget : (x.2, v) ∈ st.getVariables u.2 := PerCoreStore.mem_getVariables.mpr ⟨x, hx, hv, rfl⟩
    obtain ⟨hall, -⟩ := hcut.fileOf_eq hb hu (hvarying st hst) (hnames st hst)
    have hbw : b ∈ v.written j := (hwritten htv).mpr ⟨hbv, hit⟩
    refine ⟨_, b, (hfiles _ _).mpr ⟨_, mem_calls.mpr ⟨p, u, List.mem_of_getElem? hu, st, hst, rfl⟩,
      ⟨v, List.mem_map_of_mem hget, ?_⟩, by simp only [hju], rfl⟩, ?_, ?_⟩
    · simp only [hju]
      rw [Variable.written_of_timeVarying htv] at hbw
      exact List.ne_nil_of_mem hbw
    · simp only [hju, hall, datasets_eq, List.mem_flatMap, List.mem_map]
      exact ⟨_, hget, b, hbw, rfl⟩
    · rw [hmade, hcut.sources]
  · obtain ⟨p, j, u, hu, st, hst, hname, rfl, -⟩ := hsource f file hf
    obtain ⟨hj, -⟩ := List.getElem?_eq_some_iff.mp hu
    refine ⟨p, j, hj, st, hst, hname, fun d hd => ?_⟩
    simp only [datasets_eq, List.mem_flatMap, List.mem_map] at hd
    obtain ⟨v, hv, b, hbw, rfl⟩ := hd
    obtain ⟨x, hx, hxv, hxname⟩ := PerCoreStore.mem_getVariables.mp hv
    obtain ⟨l, hl⟩ := hvarying st hst x hx
    obtain ⟨w, hw, htv, rfl, hsees⟩ := hcut.variable hb hu hl
    obtain rfl := Option.some.inj (hxv.symm.trans hw)
    obtain ⟨hbv, hit⟩ := (hwritten htv).mp hbw
    obtain ⟨i, wr, hwr, hmade⟩ := hsees.written b hbv hit
    exact ⟨i, x, hx, _, b.id, wr, hl, hwr, by rw [hxname], by rw [hmade, hcut.sources]⟩
  · obtain ⟨-, -, -, -, -, -, -, -, hapart⟩ := hsource f file hf
    exact hapart

/-- The store of the only variable. -/
def oneStore : PerCoreStore := ⟨"out/", [(0, "v")]⟩

end State
end Iteration
end Damaris
