import Damaris.Env.Environment
import Damaris.Env.StaticManagers
import Damaris.Data.GroupTrees

/-!
# What `Finalize` leaves behind

The managers and the lock counter of a server are static. `InitManagers` fills the managers from the
model, and `Finalize` empties some of them before it releases the model.
-/
namespace Damaris.Env

open Data Model

/-! ## The process -/

/-- The configuration and the place of one process in it; `python` and `hdf5` are the optional
parts of the build, `t` is what a local variable happens to hold, and `segments` are the shared
memory segments that the process creates or opens. -/
structure Configuration where
  setup : Setup
  isClient : Bool
  default : Language
  t : Str → ℤ
  python : Bool
  hdf5 : Bool
  segments : List String
  parameter : List (Str × Option BoxLayout.TypedParameter)
  data : DataModel
  curve : List Name
  curveGroup : List CurveGroup
  actions : Option Actions
  scripts : Option (List String)
  storage : Option (List StoreModel)

/-- The static variables. -/
structure Statics where
  parameters : Manager BoxLayout.TypedParameter Str
  managers : Managers
  curves : Manager NamedCurve Name
  actions : Manager AnyAction String
  stores : Manager StoreModel String
  buffers : Manager String String
  iterations : Setup.Iterations
  dedicated : Bool

namespace Statics

/-- Before the first `Init`. -/
def fresh : Statics :=
  ⟨Manager.empty, Managers.empty, Manager.empty, Manager.empty, Manager.empty, Manager.empty, ⟨0, 0⟩,
    false⟩

end Statics

namespace Configuration

variable (c : Configuration)

/-- The condition under which `InitManagers` fills the managers of scripts and stores. -/
def stores (dedicated : Bool) : Bool := dedicated || decide (c.setup.serversPerNode = 0)

/-- `ScriptManager::Init`. -/
def initScripts (scripts : List String) (m : Manager AnyAction String) :
    Manager AnyAction String :=
  if c.python then m.createAll (scripts.map fun name => (name, some (.script name))) else m

def initActions (dedicated : Bool) (m : Manager AnyAction String) : Manager AnyAction String :=
  let m := match c.actions with
    | some mdl => initIn .event mdl m
    | none => m
  match c.scripts with
  | some scripts => if c.stores dedicated then c.initScripts scripts m else m
  | none => m

def initStores (dedicated : Bool) (m : Manager StoreModel String) : Manager StoreModel String :=
  match c.storage with
  | some store => if c.stores dedicated then StorageManager.init c.hdf5 store m else m
  | none => m

/-- The calls for layouts, variables and meshes. -/
def initData (params : Str → Option BoxLayout.TypedParameter) (ms : Managers) :
    Except Fault Managers :=
  (LayoutManager.init c.default params c.t c.data ms).bind fun ms =>
    (VariableManager.init c.default params c.t c.data ms).bind fun ms =>
      MeshManager.init c.default params c.t c.data ms

/-- `InitManagers` in a process that has its buffers; `managers` are layouts, variables and meshes.
A process that is no client sets a flag for its dedicated core or node, which nothing takes back. -/
def initManagers (s : Statics) (managers : Managers) : Statics where
  parameters := s.parameters.createAll c.parameter
  managers := managers
  curves := CurveManager.init c.curve c.curveGroup s.curves
  actions := c.initActions (s.dedicated || !c.isClient) s.actions
  stores := c.initStores (s.dedicated || !c.isClient) s.stores
  buffers := c.segments.foldl (fun m name => (m.add (some (name, name))).1) s.buffers
  iterations := { s.iterations with lastIteration := 0 }
  dedicated := s.dedicated || !c.isClient

/-- `Init`. -/
def init (s : Statics) : Except Fault Statics :=
  (c.initData (fun n => (s.parameters.createAll c.parameter).found n) s.managers).map
    (c.initManagers s)

/-- `Finalize`. -/
def finalize (s : Statics) : Statics :=
  { s with
    parameters := s.parameters.deleteAll
    managers := ⟨s.managers.layouts.deleteAll, s.managers.vars.deleteAll, s.managers.meshes.deleteAll⟩
    actions := if c.scripts.isSome then s.actions.deleteAll else s.actions
    buffers := s.buffers.deleteAll }

/-- What happens between the two. The calls that write data change objects of the managers that
`Finalize` empties; they may change them in any way. -/
inductive Call
  | startNextIteration
  | bind (function : Option ℕ) (name : String)
  | write (parameters : Manager BoxLayout.TypedParameter Str) (managers : Managers)
      (buffers : Manager String String)

def Call.isStart : Call → Bool
  | startNextIteration => true
  | _ => false

/-- `BoundAction::New` returns the null pointer for a null function. -/
def call (s : Statics) : Call → Statics
  | .startNextIteration =>
    { s with iterations := (c.setup.startNextIteration c.isClient s.iterations).1 }
  | .bind function name =>
    { s with actions := (s.actions.add (function.map fun f => (.bound f, name))).1 }
  | .write parameters managers buffers =>
    { s with parameters := parameters, managers := managers, buffers := buffers }

def run (s : Statics) (calls : List Call) : Statics := calls.foldl c.call s

end Configuration

/-- Nothing is there that was built from the model, and no iteration is begun. -/
structure LeavesNothing (s : Statics) : Prop where
  parameters : s.parameters = Manager.empty
  managers : s.managers = Managers.empty
  curves : s.curves = Manager.empty
  actions : ∀ x ∈ s.actions.objects, ¬ x.pointer.FromModel
  stores : s.stores = Manager.empty
  buffers : s.buffers = Manager.empty
  locks : s.iterations.locks = 0

namespace Configuration

/-- The managers that `Finalize` does not empty have got nothing, and a server has been through
whole iterations. Scripts in the model make `Finalize` empty the manager of actions. -/
structure Clean (c : Configuration) (calls : List Call) (s : Statics) : Prop where
  curves : (∀ name ∈ c.curve, '/' ∈ name) ∧ CurveManager.NoCurvesIn c.curveGroup
  stores : c.stores (!c.isClient) → ∀ store, c.storage = some store →
    ∀ mdl ∈ store, StorageManager.new c.hdf5 mdl = none
  actions : c.scripts = none → (∀ mdl, c.actions = some mdl → NoEvents mdl) ∧
    ∀ x ∈ s.actions.objects, ¬ x.pointer.IsBound
  locks : c.isClient = true ∨ c.setup.serversPerNode = 0 ∨
    c.setup.clientsPerNode / c.setup.serversPerNode ∣ calls.countP Call.isStart

variable {c : Configuration} {s s₁ : Statics}

/-! ## Between `Init` and `Finalize` -/

/-- What no call changes. -/
theorem run_frame (c : Configuration) (s : Statics) (calls : List Call) :
    (c.run s calls).curves = s.curves ∧ (c.run s calls).stores = s.stores ∧
      (c.run s calls).dedicated = s.dedicated := by
  induction calls generalizing s with
  | nil => exact ⟨rfl, rfl, rfl⟩
  | cons a calls ih =>
    obtain ⟨hcurves, hstores, hdedicated⟩ := ih (c.call s a)
    cases a <;> exact ⟨hcurves, hstores, hdedicated⟩

theorem mem_run_actions {x : Managed AnyAction String} (hx : x ∈ s.actions.objects)
    (calls : List Call) : x ∈ (c.run s calls).actions.objects := by
  induction calls generalizing s with
  | nil => exact hx
  | cons a calls ih =>
    refine ih (s := c.call s a) ?_
    cases a with
    | startNextIteration => exact hx
    | write => exact hx
    | bind function name =>
      cases function with
      | none => exact hx
      | some f => exact Manager.mem_put_of_mem hx (.bound f) name

/-- Without a bound action at the end there has never been a new one. -/
theorem run_actions_eq {calls : List Call}
    (h : ∀ x ∈ (c.run s calls).actions.objects, ¬ x.pointer.IsBound) :
    (c.run s calls).actions = s.actions := by
  induction calls generalizing s with
  | nil => rfl
  | cons a calls ih =>
    have hrest : (c.run s (a :: calls)).actions = (c.call s a).actions := ih h
    rw [hrest]
    cases a with
    | startNextIteration => rfl
    | write => rfl
    | bind function name =>
      cases function with
      | none => rfl
      | some f =>
        obtain ⟨-, -, helems⟩ | hsame := s.actions.put_cases (.bound f) name
        · have hmem : (⟨.bound f, name, s.actions.getNumObjects⟩ : Managed AnyAction String) ∈
              (c.call s (.bind (some f) name)).actions.objects :=
            KeyedStore.mem_def.mpr (helems ▸ List.mem_append_right _ (List.mem_singleton_self _))
          exact absurd trivial (h _ (mem_run_actions hmem calls))
        · exact hsame

theorem succ_mod (n r : ℕ) : (n + 1) % r = if n % r + 1 = r then 0 else n % r + 1 := by
  obtain rfl | hr := Nat.eq_zero_or_pos r
  · simp
  · have hlt := Nat.mod_lt n hr
    rw [← Nat.mod_add_mod]
    split_ifs with h
    · rw [h, Nat.mod_self]
    · exact Nat.mod_eq_of_lt (by omega)

/-- A server counts the calls, up to whole iterations. -/
theorem locks_run (hserver : ¬ (c.isClient = true ∨ c.setup.serversPerNode = 0)) {n : ℕ}
    (hs : s.iterations.locks = n % (c.setup.clientsPerNode / c.setup.serversPerNode))
    (calls : List Call) : (c.run s calls).iterations.locks =
      (n + calls.countP Call.isStart) % (c.setup.clientsPerNode / c.setup.serversPerNode) := by
  induction calls generalizing s n with
  | nil => simpa [run] using hs
  | cons a calls ih =>
    cases a with
    | startNextIteration =>
      have hcond : ¬ (c.setup.serversPerNode = 0 ∨ c.isClient = true) := fun h => hserver h.symm
      have hstep : (c.call s .startNextIteration).iterations.locks =
          (n + 1) % (c.setup.clientsPerNode / c.setup.serversPerNode) := by
        simp only [call, Setup.startNextIteration, if_neg hcond, hs]
        rw [succ_mod]
        split_ifs <;> rfl
      have hcount : (Call.startNextIteration :: calls).countP Call.isStart =
          calls.countP Call.isStart + 1 := List.countP_cons_of_pos rfl
      rw [hcount, Nat.add_comm _ 1, ← Nat.add_assoc]
      exact ih hstep
    | bind function name => exact ih (s := c.call s (.bind function name)) hs
    | write parameters managers buffers =>
      exact ih (s := c.call s (.write parameters managers buffers)) hs

theorem locks_run_client (hclient : c.isClient = true ∨ c.setup.serversPerNode = 0)
    (calls : List Call) : (c.run s calls).iterations.locks = s.iterations.locks := by
  induction calls generalizing s with
  | nil => rfl
  | cons a calls ih =>
    refine (ih (s := c.call s a)).trans ?_
    cases a with
    | startNextIteration => simp only [call, Setup.startNextIteration, if_pos hclient.symm]
    | bind => rfl
    | write => rfl

theorem locks_eq_zero_iff (hs : s.iterations.locks = 0) (calls : List Call) :
    (c.run s calls).iterations.locks = 0 ↔ c.isClient = true ∨ c.setup.serversPerNode = 0 ∨
      c.setup.clientsPerNode / c.setup.serversPerNode ∣ calls.countP Call.isStart := by
  rw [← or_assoc]
  by_cases hclient : c.isClient = true ∨ c.setup.serversPerNode = 0
  · rw [locks_run_client hclient, hs]
    exact iff_of_true rfl (.inl hclient)
  · rw [locks_run hclient (n := 0) (by rw [hs, Nat.zero_mod]), Nat.zero_add,
      ← Nat.dvd_iff_mod_eq_zero]
    exact (or_iff_right hclient).symm

/-! ## After `Finalize` -/

theorem init_eq_ok_iff {s' : Statics} : c.init s = .ok s' ↔
    ∃ managers, c.initData (fun n => (s.parameters.createAll c.parameter).found n) s.managers =
      .ok managers ∧ c.initManagers s managers = s' := by
  unfold init
  cases c.initData (fun n => (s.parameters.createAll c.parameter).found n) s.managers with
  | error e => simp [Except.map]
  | ok managers => simp [Except.map]

/-- The second `Init` differs from the first at most in these managers and the counter. -/
theorem init_finalize_iff (h : c.init Statics.fresh = .ok s₁) (hded : s.dedicated = !c.isClient) :
    c.init (c.finalize s) = .ok s₁ ↔
      CurveManager.init c.curve c.curveGroup s.curves = s₁.curves ∧
      c.initActions (!c.isClient) (c.finalize s).actions = s₁.actions ∧
      c.initStores (!c.isClient) s.stores = s₁.stores ∧ s.iterations.locks = 0 := by
  obtain ⟨managers, hdata, rfl⟩ := init_eq_ok_iff.mp h
  have hdata' : c.initData (fun n => ((c.finalize s).parameters.createAll c.parameter).found n)
      (c.finalize s).managers = .ok managers := hdata
  have hflag : ((c.finalize s).dedicated || !c.isClient) = !c.isClient := by
    simp [finalize, hded]
  rw [init_eq_ok_iff, hdata']
  simp only [Except.ok.injEq, exists_eq_left', initManagers, hflag, Statics.mk.injEq,
    Statics.fresh, Bool.false_or, Setup.Iterations.mk.injEq, true_and, and_true]
  simp [finalize, Manager.deleteAll]

/-- The state after the first `Init`, run and `Finalize` in terms of the configuration. -/
theorem leavesNothing_iff (h : c.init Statics.fresh = .ok s₁) (calls : List Call) :
    LeavesNothing (c.finalize (c.run s₁ calls)) ↔
      ((∀ name ∈ c.curve, '/' ∈ name) ∧ CurveManager.NoCurvesIn c.curveGroup) ∧
      c.initStores (!c.isClient) Manager.empty = Manager.empty ∧
      (∀ x ∈ (c.finalize (c.run s₁ calls)).actions.objects, ¬ x.pointer.FromModel) ∧
      (c.isClient = true ∨ c.setup.serversPerNode = 0 ∨
        c.setup.clientsPerNode / c.setup.serversPerNode ∣ calls.countP Call.isStart) := by
  obtain ⟨managers, -, rfl⟩ := init_eq_ok_iff.mp h
  obtain ⟨hcurves, hstores, -⟩ := run_frame c (c.initManagers Statics.fresh managers) calls
  have hcurves' := CurveManager.init_eq_empty_iff c.curve c.curveGroup Manager.empty
  rw [← locks_eq_zero_iff (s := c.initManagers Statics.fresh managers) rfl calls]
  constructor
  · intro hleaves
    refine ⟨(hcurves'.mp (hcurves.symm.trans hleaves.curves)).2, hstores.symm.trans hleaves.stores,
      hleaves.actions, hleaves.locks⟩
  · rintro ⟨hc, hs, ha, hl⟩
    exact ⟨rfl, rfl, hcurves.trans (hcurves'.mpr ⟨rfl, hc⟩), ha, hstores.trans hs, rfl, hl⟩

theorem initStores_eq_empty_iff (dedicated : Bool) :
    c.initStores dedicated Manager.empty = Manager.empty ↔ (c.stores dedicated →
      ∀ store, c.storage = some store → ∀ mdl ∈ store, StorageManager.new c.hdf5 mdl = none) := by
  unfold initStores
  cases c.storage with
  | none => simp
  | some store =>
    dsimp only
    split_ifs with hstores
    · rw [StorageManager.init_eq_empty_iff]
      simp [hstores]
    · simp [hstores]

/-- Without scripts only the events fill the manager of actions. -/
theorem initActions_of_none (hscripts : c.scripts = none) (dedicated : Bool)
    (m : Manager AnyAction String) :
    c.initActions dedicated m = c.actions.elim m fun mdl => initIn .event mdl m := by
  unfold initActions
  rw [hscripts]
  cases c.actions <;> rfl

theorem not_isBound_initActions (hscripts : c.scripts = none) (dedicated : Bool) :
    ∀ x ∈ (c.initActions dedicated Manager.empty).objects, ¬ x.pointer.IsBound := by
  rw [initActions_of_none hscripts]
  intro x hx
  cases hactions : c.actions with
  | none => exact absurd (hactions ▸ hx) (KeyedStore.notMem_empty x)
  | some mdl =>
    rw [hactions] at hx
    obtain hx | ⟨a, hp⟩ := of_mem_initIn hx
    · exact absurd hx (KeyedStore.notMem_empty x)
    · rw [hp]
      exact id

/-- Without events the collector is all there is, and a second time nothing is added. -/
theorem initActions_of_noEvents (hscripts : c.scripts = none)
    (hevents : ∀ mdl, c.actions = some mdl → NoEvents mdl) (dedicated : Bool) :
    (∀ x ∈ (c.initActions dedicated Manager.empty).objects, ¬ x.pointer.FromModel) ∧
      c.initActions dedicated (c.initActions dedicated Manager.empty) =
        c.initActions dedicated Manager.empty := by
  simp only [initActions_of_none hscripts]
  cases hactions : c.actions with
  | none => exact ⟨fun x hx => absurd hx (KeyedStore.notMem_empty x), rfl⟩
  | some mdl =>
    have hnone := hevents mdl hactions
    simp only [Option.elim_some, initIn_empty_of_noEvents hnone]
    refine ⟨fun x hx => ?_, initIn_of_search (search_put_empty _) hnone⟩
    rw [KeyedStore.mem_def, Manager.put_empty, List.mem_singleton] at hx
    rw [hx]
    exact fun hmodel => hmodel rfl

/-- With an event there is an object of the model, which stays. -/
theorem noEvents_of_leavesNothing (h : c.init Statics.fresh = .ok s₁) {calls : List Call}
    (hscripts : c.scripts = none)
    (hleaves : ∀ x ∈ (c.run s₁ calls).actions.objects, ¬ x.pointer.FromModel) :
    ∀ mdl, c.actions = some mdl → NoEvents mdl := by
  intro mdl hactions
  obtain ⟨managers, -, rfl⟩ := init_eq_ok_iff.mp h
  by_contra hevents
  obtain ⟨x, hx, a, ha, hp⟩ : ∃ x ∈ (initIn AnyAction.event mdl Manager.empty).objects,
      ∃ a : Action, a ≠ .garbageCollector ∧ x.pointer = .event a := exists_event hevents
  have hfirst : (c.initManagers Statics.fresh managers).actions =
      initIn .event mdl Manager.empty := by
    rw [initManagers, initActions_of_none hscripts, hactions]
    rfl
  refine hleaves x (mem_run_actions (hfirst ▸ hx) calls) ?_
  rw [hp]
  exact ha

/-- `Finalize` empties the manager of actions on behalf of the scripts only. -/
theorem actions_finalize_of_none (hscripts : c.scripts = none) (s : Statics) :
    (c.finalize s).actions = s.actions := by
  simp [finalize, hscripts]

theorem actions_finalize_of_ne_none (hscripts : c.scripts ≠ none) (s : Statics) :
    (c.finalize s).actions = Manager.empty := by
  rw [finalize, if_pos (Option.isSome_iff_ne_none.mpr hscripts)]
  rfl

/-- `Finalize` leaves nothing, and a second `Init` does what the first did, exactly where the
managers that are not emptied got nothing and no iteration is begun. -/
theorem finalize_clean_iff (h : c.init Statics.fresh = .ok s₁) (calls : List Call) :
    (LeavesNothing (c.finalize (c.run s₁ calls)) ∧
      c.init (c.finalize (c.run s₁ calls)) = .ok s₁) ↔ c.Clean calls (c.run s₁ calls) := by
  obtain ⟨managers, -, hs₁⟩ := init_eq_ok_iff.mp h
  have hactions₁ : s₁.actions = c.initActions (!c.isClient) Manager.empty := hs₁ ▸ rfl
  have hcurves₁ : s₁.curves = CurveManager.init c.curve c.curveGroup Manager.empty := hs₁ ▸ rfl
  have hstores₁ : s₁.stores = c.initStores (!c.isClient) Manager.empty := hs₁ ▸ rfl
  have hdedicated₁ : s₁.dedicated = !c.isClient := hs₁ ▸ rfl
  have hlocks₁ : s₁.iterations.locks = 0 := hs₁ ▸ rfl
  obtain ⟨hcurves, hstores, hdedicated⟩ := run_frame c s₁ calls
  have hempty := CurveManager.init_eq_empty_iff c.curve c.curveGroup Manager.empty
  rw [leavesNothing_iff h, init_finalize_iff h (hdedicated.trans hdedicated₁),
    initStores_eq_empty_iff]
  constructor
  · rintro ⟨⟨hc, hs, hmodel, hl⟩, -, hactions, -, -⟩
    refine ⟨hc, hs, fun hscripts => ?_, hl⟩
    rw [actions_finalize_of_none hscripts] at hmodel hactions
    refine ⟨noEvents_of_leavesNothing h hscripts hmodel, fun x hx hbound => ?_⟩
    have hx₁ : x ∈ s₁.actions.objects := by
      rw [← hactions, initActions_of_none hscripts]
      cases c.actions with
      | none => exact hx
      | some mdl => exact mem_initIn hx mdl
    exact not_isBound_initActions hscripts _ x (hactions₁ ▸ hx₁) hbound
  · rintro ⟨hc, hs, hactions, hl⟩
    have hcurvesEmpty : (c.run s₁ calls).curves = Manager.empty :=
      hcurves.trans (hcurves₁.trans (hempty.mpr ⟨rfl, hc⟩))
    have hstoresEmpty : (c.run s₁ calls).stores = Manager.empty :=
      hstores.trans (hstores₁.trans ((initStores_eq_empty_iff _).mpr hs))
    have hlocks := (locks_eq_zero_iff hlocks₁ calls).mpr hl
    rw [hcurvesEmpty, hstoresEmpty, ← hcurves₁, ← hstores₁]
    by_cases hscripts : c.scripts = none
    · obtain ⟨hevents, hbound⟩ := hactions hscripts
      obtain ⟨hmodel, hagain⟩ := initActions_of_noEvents hscripts hevents (!c.isClient)
      rw [actions_finalize_of_none hscripts, run_actions_eq hbound, hactions₁, hagain]
      exact ⟨⟨hc, hs, hmodel, hl⟩, rfl, rfl, rfl, hlocks⟩
    · rw [actions_finalize_of_ne_none hscripts]
      exact ⟨⟨hc, hs, fun x hx => absurd hx (KeyedStore.notMem_empty x), hl⟩, rfl, hactions₁.symm,
        rfl, hlocks⟩

/-- Without layouts, variables and meshes the initialisation goes through. -/
theorem exists_init (h : c.data = ⟨[], [], [], []⟩) :
    ∃ managers, c.init Statics.fresh = .ok (c.initManagers Statics.fresh managers) := by
  generalize hparams : (fun n => (Statics.fresh.parameters.createAll c.parameter).found n) = params
  have hlayouts (ms : Managers) : ∃ ms', LayoutManager.init c.default params c.t c.data ms =
      .ok ms' := by
    rw [h]
    exact ⟨_, rfl⟩
  have hvars (ms : Managers) : ∃ ms', VariableManager.init c.default params c.t c.data ms =
      .ok ms' := by
    obtain ⟨ms', hms'⟩ := hlayouts ms
    rw [VariableManager.init, hms', ← apply_ite Except.ok]
    exact ⟨_, rfl⟩
  have hmeshes (ms : Managers) : ∃ ms', MeshManager.init c.default params c.t c.data ms =
      .ok ms' := by
    obtain ⟨ms', hms'⟩ := hvars ms
    rw [MeshManager.init, hms', ← apply_ite Except.ok]
    exact ⟨_, rfl⟩
  obtain ⟨ms₁, h₁⟩ := hlayouts Statics.fresh.managers
  obtain ⟨ms₂, h₂⟩ := hvars ms₁
  obtain ⟨managers, h₃⟩ := hmeshes ms₂
  have hdata : c.initData params Statics.fresh.managers = .ok managers := by
    rw [initData, h₁, Except.bind, h₂, Except.bind, h₃]
  exact ⟨managers, init_eq_ok_iff.mpr ⟨managers, hparams ▸ hdata, rfl⟩⟩

/-- The server of two clients. -/
def oneServer (curve : List Name) : Configuration where
  setup := ⟨1, 3, 0, 1⟩
  isClient := false
  default := .c
  t := fun _ => 0
  python := false
  hdf5 := false
  segments := ["buffer"]
  parameter := []
  data := ⟨[], [], [], []⟩
  curve := curve
  curveGroup := []
  actions := some ⟨[], []⟩
  scripts := none
  storage := none

theorem finalize_clean_iterations :
    ∃ s₁, (oneServer []).init Statics.fresh = .ok s₁ ∧
      LeavesNothing ((oneServer []).finalize
        ((oneServer []).run s₁ [.startNextIteration, .startNextIteration])) := by
  obtain ⟨managers, hinit⟩ := exists_init (c := oneServer []) rfl
  refine ⟨_, hinit, ((finalize_clean_iff hinit _).mpr ⟨?_, ?_, fun _ => ⟨?_, ?_⟩, ?_⟩).1⟩
  · exact ⟨by simp [oneServer], trivial⟩
  · rintro - store ⟨⟩
  · rintro mdl ⟨⟩ e he
    cases he
  · exact not_isBound_initActions rfl _
  · exact .inr (.inr (by decide))

/-- A curve stays when its model is released, and one of two clients has ended its iteration. -/
theorem finalize_not_clean_curve :
    ∃ s₁, (oneServer [['c']]).init Statics.fresh = .ok s₁ ∧
      let s := (oneServer [['c']]).finalize ((oneServer [['c']]).run s₁ [.startNextIteration])
      s.curves ≠ Manager.empty ∧ s.iterations.locks = 1 ∧ ¬ LeavesNothing s := by
  obtain ⟨managers, hinit⟩ := exists_init (c := oneServer [['c']]) rfl
  have hne : CurveManager.init [['c']] [] Manager.empty ≠ Manager.empty := fun h => by
    simpa using ((CurveManager.init_eq_empty_iff [['c']] [] Manager.empty).mp h).2.1
  exact ⟨_, hinit, hne, rfl, fun h => hne h.curves⟩

end Configuration

end Damaris.Env
