import Damaris.Data.ScopedNames
import Damaris.Action.ActionManager

/-!
# Curves, stores and actions

`CurveManager` and `StorageManager` create what the model declares. `ActionManager` and
`ScriptManager` are one manager, in which the actions of the events stand among others.
-/
namespace Damaris

/-! ## Managers that fill up -/

namespace Manager

variable {P N : Type*} {m : Manager P N}

theorem eq_empty_iff : m = empty ↔ m.objects.elems = [] := by
  constructor
  · rintro rfl
    rfl
  · intro h
    obtain ⟨⟨elems, hnodup⟩, hids⟩ := m
    cases h
    rfl

variable [DecidableEq N]

theorem mem_put_of_mem {x : Managed P N} (hx : x ∈ m.objects) (p : P) (name : N) :
    x ∈ (m.put p name).objects := by
  obtain ⟨-, -, helems⟩ | hsame := m.put_cases p name
  · rw [KeyedStore.mem_def, helems]
    exact List.mem_append_left _ hx
  · rwa [hsame]

theorem put_of_search {name : N} (h : (m.search name).isSome) (p : P) : m.put p name = m := by
  obtain ⟨hnone, -, -⟩ | hsame := m.put_cases p name
  · rw [hnone] at h
    cases h
  · exact hsame

/-- The first object is never refused. -/
theorem put_empty (p : P) (name : N) :
    ((empty : Manager P N).put p name).objects.elems =
      [⟨p, name, (empty : Manager P N).getNumObjects⟩] :=
  elems_insert (m := empty) rfl

theorem put_ne_empty (m : Manager P N) (p : P) (name : N) : m.put p name ≠ empty := by
  rw [Ne, eq_empty_iff]
  obtain rfl | hm := eq_or_ne m empty
  · simp [put_empty]
  · obtain ⟨-, -, helems⟩ | hsame := m.put_cases p name
    · simp [helems]
    · rwa [hsame, ← eq_empty_iff]

/-- A creation leaves the manager empty if it was, and nothing was made. -/
theorem create_eq_empty_iff {made : Option P} {name : N} :
    (m.create made name).1 = empty ↔ m = empty ∧ made = none := by
  cases made with
  | none => simp [create]
  | some p => simpa [create_fst] using m.put_ne_empty p name

end Manager

namespace Env

open Data Model

/-! ## Curves -/

structure NamedCurve where
  model : Name
  name : Name
  deriving DecidableEq

/-- `Curve::New` of a curve with this name in the model. -/
def NamedCurve.new (mdl name : Name) : Option NamedCurve :=
  if '/' ∈ mdl then none else some ⟨mdl, name⟩

/-- `model::Group`, as far as `CurveManager` reads it. -/
structure CurveGroup where
  name : Name
  enabled : Bool
  curve : List Name
  group : List CurveGroup

namespace CurveManager

def create (m : Manager NamedCurve Name) (mdl name : Name) : Manager NamedCurve Name :=
  (m.create (NamedCurve.new mdl name) name).1

mutual

/-- `ReadCurvesInSubGroup`. -/
def readCurvesInSubGroup (groupName : Name) : CurveGroup → Manager NamedCurve Name →
    Manager NamedCurve Name
  | ⟨_, enabled, curve, group⟩, m =>
    if !enabled then m
    else
      readCurvesInSubGroups groupName group
        (curve.foldl (fun m c => create m c (groupName ++ '/' :: c)) m)

def readCurvesInSubGroups (groupName : Name) : List CurveGroup → Manager NamedCurve Name →
    Manager NamedCurve Name
  | [], m => m
  | g :: groups, m =>
    readCurvesInSubGroups groupName groups
      (readCurvesInSubGroup (groupName ++ '/' :: g.name) g m)

end

/-- `CurveManager::Init`. -/
def init (curve : List Name) (group : List CurveGroup) (m : Manager NamedCurve Name) :
    Manager NamedCurve Name :=
  group.foldl (fun m g => readCurvesInSubGroup g.name g m) (curve.foldl (fun m c => create m c c) m)

mutual

/-- No curve of the group or the enabled groups within has a name that is allowed. -/
def NoCurves : CurveGroup → Prop
  | ⟨_, enabled, curve, group⟩ => enabled = true → (∀ c ∈ curve, '/' ∈ c) ∧ NoCurvesIn group

def NoCurvesIn : List CurveGroup → Prop
  | [] => True
  | g :: groups => NoCurves g ∧ NoCurvesIn groups

end

theorem foldl_create_eq_empty_iff (fullName : Name → Name) (curve : List Name)
    (m : Manager NamedCurve Name) :
    curve.foldl (fun m c => create m c (fullName c)) m = Manager.empty ↔
      m = Manager.empty ∧ ∀ c ∈ curve, '/' ∈ c := by
  induction curve generalizing m with
  | nil => simp
  | cons c curve ih =>
    rw [List.foldl_cons, ih, create, Manager.create_eq_empty_iff, List.forall_mem_cons, and_assoc]
    simp [NamedCurve.new]

mutual

theorem readCurvesInSubGroup_eq_empty_iff (groupName : Name) : ∀ (g : CurveGroup)
    (m : Manager NamedCurve Name),
    readCurvesInSubGroup groupName g m = Manager.empty ↔ m = Manager.empty ∧ NoCurves g
  | ⟨_, false, curve, group⟩, m => by simp [readCurvesInSubGroup, NoCurves]
  | ⟨_, true, curve, group⟩, m => by
    have hgroups := readCurvesInSubGroups_eq_empty_iff groupName group
      (curve.foldl (fun m c => create m c (groupName ++ '/' :: c)) m)
    simp only [readCurvesInSubGroup, NoCurves, Bool.not_true, Bool.false_eq_true, if_false, hgroups,
      foldl_create_eq_empty_iff fun c => groupName ++ '/' :: c, forall_const, and_assoc]

theorem readCurvesInSubGroups_eq_empty_iff (groupName : Name) : ∀ (groups : List CurveGroup)
    (m : Manager NamedCurve Name),
    readCurvesInSubGroups groupName groups m = Manager.empty ↔
      m = Manager.empty ∧ NoCurvesIn groups
  | [], m => by simp [readCurvesInSubGroups, NoCurvesIn]
  | g :: groups, m => by
    rw [readCurvesInSubGroups, readCurvesInSubGroups_eq_empty_iff groupName groups,
      readCurvesInSubGroup_eq_empty_iff (groupName ++ '/' :: g.name) g, NoCurvesIn, and_assoc]

end

/-- Where the manager is still empty after `Init`. -/
theorem init_eq_empty_iff (curve : List Name) (group : List CurveGroup)
    (m : Manager NamedCurve Name) :
    init curve group m = Manager.empty ↔
      m = Manager.empty ∧ (∀ c ∈ curve, '/' ∈ c) ∧ NoCurvesIn group := by
  unfold init
  rw [← and_assoc, ← foldl_create_eq_empty_iff id]
  simp only [id]
  generalize curve.foldl (fun m c => create m c c) m = m
  induction group generalizing m with
  | nil => simp [NoCurvesIn]
  | cons g groups ih =>
    rw [List.foldl_cons, ih, readCurvesInSubGroup_eq_empty_iff, NoCurvesIn, and_assoc]

end CurveManager

/-! ## Stores -/

inductive StoreType
  | null
  | HDF5
  deriving DecidableEq

structure StoreModel where
  name : String
  type : StoreType
  deriving DecidableEq

namespace StorageManager

/-- What the `switch` of `Init` makes; `hdf5` is `HAVE_HDF5_ENABLED`. -/
def new (hdf5 : Bool) (mdl : StoreModel) : Option StoreModel :=
  match mdl.type with
  | .null => some mdl
  | .HDF5 => if hdf5 then some mdl else none

/-- `StorageManager::Init`. -/
def init (hdf5 : Bool) (store : List StoreModel) (m : Manager StoreModel String) :
    Manager StoreModel String :=
  m.createAll (store.map fun mdl => (mdl.name, new hdf5 mdl))

theorem init_eq_empty_iff (hdf5 : Bool) (store : List StoreModel) (m : Manager StoreModel String) :
    init hdf5 store m = Manager.empty ↔ m = Manager.empty ∧ ∀ mdl ∈ store, new hdf5 mdl = none := by
  unfold init
  induction store generalizing m with
  | nil => simp [Manager.createAll]
  | cons mdl store ih =>
    rw [List.map_cons, Manager.createAll_cons, ih, Manager.create_eq_empty_iff,
      List.forall_mem_cons, and_assoc]

end StorageManager

/-! ## Actions -/

/-- What stands in `Manager<Action>`: actions of the configuration's events with the garbage
collector, scripts, and functions that the simulation binds. -/
inductive AnyAction
  | event (a : Action)
  | script (name : String)
  | bound (function : ℕ)
  deriving DecidableEq

namespace AnyAction

/-- The action is built from a part of the model, which it keeps a reference to. -/
def FromModel : AnyAction → Prop
  | event a => a ≠ .garbageCollector
  | script _ => True
  | bound _ => False

def IsBound : AnyAction → Prop
  | bound _ => True
  | _ => False

end AnyAction

section InitIn

variable {P : Type*} (wrap : Action → P)

/-- `Create<DynamicAction>` into a manager that also has other actions; the next four are those of
`ActionManager` in such a manager. -/
def createIn (m : Manager P String) (mdl : Event) (name : String) : Manager P String :=
  (m.create (some (wrap (Action.new mdl name))) (Action.new mdl name).getName).1

def addCollectorIn (m : Manager P String) : Manager P String :=
  (m.add (some (wrap .garbageCollector, Action.garbageCollector.getName))).1

def buildIn (h : String × Bool) (m : Manager P String) (e : Event) : Manager P String :=
  let m := createIn wrap m e e.name
  if h.2 && decide (e.name = h.1) then createIn wrap m e "#error" else m

def startIn (mdl : Actions) (m : Manager P String) : Manager P String :=
  if mdl.error.isEmpty then addCollectorIn wrap m else m

def initIn (mdl : Actions) (m : Manager P String) : Manager P String :=
  let m := mdl.event.foldl (buildIn wrap (ActionManager.handler mdl.error)) (startIn wrap mdl m)
  if (m.search "#error").isSome then m else addCollectorIn wrap m

theorem initIn_id (mdl : Actions) (m : ActionManager) : initIn id mdl m = ActionManager.init mdl m :=
  rfl

/-- No event becomes an action: there is none, or all have the name of the collector, which is
there before them. -/
def NoEvents (mdl : Actions) : Prop := ∀ e ∈ mdl.event, mdl.error = [] ∧ e.name = "#error"

variable {wrap} {mdl : Actions} {m : Manager P String}

theorem createIn_eq (m : Manager P String) (e : Event) (name : String) :
    createIn wrap m e name = m.put (wrap (Action.new e name)) e.name := by
  rw [createIn, Manager.create_fst, Action.getName_new]

theorem addCollectorIn_eq (m : Manager P String) :
    addCollectorIn wrap m = m.put (wrap .garbageCollector) "#error" := rfl

/-- What every insertion preserves, one event preserves. -/
theorem buildIn_induction {motive : Manager P String → Prop} (hm : motive m)
    (hput : ∀ m a name, motive m → motive (m.put (wrap a) name)) (h : String × Bool) (e : Event) :
    motive (buildIn wrap h m e) := by
  unfold buildIn
  simp only [createIn_eq]
  split
  · exact hput _ _ _ (hput _ _ _ hm)
  · exact hput _ _ _ hm

theorem foldl_buildIn_induction {motive : Manager P String → Prop} (hm : motive m)
    (hput : ∀ m a name, motive m → motive (m.put (wrap a) name)) (h : String × Bool)
    (es : List Event) : motive (es.foldl (buildIn wrap h) m) := by
  induction es generalizing m with
  | nil => exact hm
  | cons e es ih => exact ih (buildIn_induction hm hput h e)

theorem initIn_induction {motive : Manager P String → Prop} (hm : motive m)
    (hput : ∀ m a name, motive m → motive (m.put (wrap a) name)) (mdl : Actions) :
    motive (initIn wrap mdl m) := by
  have hstart : motive (startIn wrap mdl m) := by
    unfold startIn
    split
    · exact hput m .garbageCollector "#error" hm
    · exact hm
  have hfold := foldl_buildIn_induction hstart hput (ActionManager.handler mdl.error) mdl.event
  unfold initIn
  dsimp only
  split
  · exact hfold
  · exact hput _ .garbageCollector "#error" hfold

theorem mem_initIn {x : Managed P String} (hx : x ∈ m.objects) (mdl : Actions) :
    x ∈ (initIn wrap mdl m).objects :=
  initIn_induction (motive := fun m => x ∈ m.objects) hx
    (fun _ _ _ hm => Manager.mem_put_of_mem hm _ _) mdl

/-- The new objects are those that are wrapped. -/
theorem of_mem_initIn {x : Managed P String} (hx : x ∈ (initIn wrap mdl m).objects) :
    x ∈ m.objects ∨ ∃ a, x.pointer = wrap a := by
  revert hx
  refine initIn_induction
    (motive := fun m' => x ∈ m'.objects → x ∈ m.objects ∨ ∃ a, x.pointer = wrap a) .inl ?_ mdl
  intro m' a name ih hx
  obtain hx | ⟨-, hp⟩ := Manager.mem_put hx
  · exact ih hx
  · exact .inr ⟨a, hp⟩

/-- An event under a name that is taken changes nothing. -/
theorem buildIn_of_search {h : String × Bool} {e : Event} (he : (m.search e.name).isSome) :
    buildIn wrap h m e = m := by
  have hput (p : P) : m.put p e.name = m := Manager.put_of_search he p
  unfold buildIn
  simp only [createIn_eq, hput]
  split <;> rfl

theorem foldl_buildIn_of_search {h : String × Bool} {es : List Event}
    (hes : ∀ e ∈ es, (m.search e.name).isSome) : es.foldl (buildIn wrap h) m = m := by
  induction es with
  | nil => rfl
  | cons e es ih =>
    obtain ⟨he, hes⟩ := List.forall_mem_cons.mp hes
    rw [List.foldl_cons, buildIn_of_search he, ih hes]

/-- Without events the manager stays what it is once it has a handler. -/
theorem initIn_of_search (hm : (m.search "#error").isSome) (h : NoEvents mdl) :
    initIn wrap mdl m = m := by
  have hput : m.put (wrap .garbageCollector) "#error" = m := Manager.put_of_search hm _
  have hstart : startIn wrap mdl m = m := by
    unfold startIn
    rw [addCollectorIn_eq, hput, ite_self]
  have hfold : mdl.event.foldl (buildIn wrap (ActionManager.handler mdl.error)) m = m :=
    foldl_buildIn_of_search fun e he => (h e he).2 ▸ hm
  unfold initIn
  rw [hstart, hfold]
  exact if_pos hm

theorem search_put_empty (p : P) :
    (((Manager.empty : Manager P String).put p "#error").search "#error").isSome := rfl

/-- From an empty manager the collector is all there is. -/
theorem initIn_empty_of_noEvents (h : NoEvents mdl) :
    initIn wrap mdl Manager.empty = Manager.empty.put (wrap .garbageCollector) "#error" := by
  cases herror : mdl.error with
  | nil =>
    have hstart : startIn wrap mdl Manager.empty =
        Manager.empty.put (wrap .garbageCollector) "#error" := by
      unfold startIn
      rw [herror]
      rfl
    unfold initIn
    rw [hstart, foldl_buildIn_of_search fun e he => by rw [(h e he).2]; exact search_put_empty _]
    exact if_pos (search_put_empty _)
  | cons r rs =>
    have hevent : mdl.event = [] := List.eq_nil_iff_forall_not_mem.mpr fun e he => by
      simpa [herror] using (h e he).1
    unfold initIn startIn
    rw [herror, hevent]
    rfl

/-- An event is refused only under the name of the collector. -/
theorem exists_event_of_put (m : Manager P String) (hm : m = Manager.empty ∨
    m = Manager.empty.put (wrap .garbageCollector) "#error") (e : Event)
    (he : m = Manager.empty ∨ e.name ≠ "#error") (h : String × Bool) :
    ∃ x ∈ (buildIn wrap h m e).objects, ∃ a : Action, a ≠ .garbageCollector ∧
      x.pointer = wrap a := by
  have hnumbered : m.Numbered := by
    obtain rfl | rfl := hm
    · exact Manager.numbered_empty
    · exact Manager.numbered_empty.put _ _
  have hlength : m.objects.elems.length < 2 ^ 32 := by
    obtain rfl | rfl := hm
    · exact Nat.two_pow_pos 32
    · rw [Manager.put_empty, List.length_singleton]
      norm_num
  have hnone : m.search e.name = none := by
    obtain rfl | rfl := hm
    · rfl
    · have hne : e.name ≠ "#error" := he.resolve_left (Manager.put_ne_empty _ _ _)
      rw [Manager.numbered_empty.search_put _ (fun _ => Nat.two_pow_pos 32), if_neg hne]
      rfl
  have hsearch := hnumbered.search_put (wrap (Action.new e e.name))
    (fun (_ : m.search e.name = none) => hlength) e.name
  rw [hnone, Option.none_or, if_pos rfl] at hsearch
  obtain ⟨hmem, -⟩ := KeyedStore.find_eq_some.mp hsearch
  have hne : Action.new e e.name ≠ .garbageCollector := by
    intro heq
    have hmodel := Action.getModel_new e e.name
    rw [heq] at hmodel
    cases hmodel
  refine ⟨⟨wrap (Action.new e e.name), e.name, m.getNumObjects⟩, ?_, Action.new e e.name, hne, rfl⟩
  unfold buildIn
  simp only [createIn_eq]
  split
  · exact Manager.mem_put_of_mem hmem _ _
  · exact hmem

theorem foldl_buildIn_exists (m : Manager P String) (hm : m = Manager.empty ∨
    m = Manager.empty.put (wrap .garbageCollector) "#error") (h : String × Bool) {es : List Event}
    (hes : ∃ e ∈ es, m = Manager.empty ∨ e.name ≠ "#error") :
    ∃ x ∈ (es.foldl (buildIn wrap h) m).objects, ∃ a : Action, a ≠ .garbageCollector ∧
      x.pointer = wrap a := by
  induction es with
  | nil => simp at hes
  | cons e es ih =>
    by_cases he : m = Manager.empty ∨ e.name ≠ "#error"
    · obtain ⟨x, hx, hpointer⟩ := exists_event_of_put m hm e he h
      refine ⟨x, ?_, hpointer⟩
      exact foldl_buildIn_induction (motive := fun m => x ∈ m.objects) hx
        (fun _ _ _ hm => Manager.mem_put_of_mem hm _ _) h es
    · obtain ⟨hne, hname⟩ := not_or.mp he
      have hsearch : (m.search e.name).isSome := by
        rw [hm.resolve_left hne, not_not.mp hname]
        exact search_put_empty _
      rw [List.foldl_cons, buildIn_of_search hsearch]
      obtain ⟨f, hf, hf'⟩ := hes
      obtain rfl | hf := List.mem_cons.mp hf
      · exact absurd hf' he
      · exact ih ⟨f, hf, hf'⟩

/-- Otherwise one event becomes an action. -/
theorem exists_event (h : ¬ NoEvents mdl) : ∃ x ∈ (initIn wrap mdl Manager.empty).objects,
    ∃ a : Action, a ≠ .garbageCollector ∧ x.pointer = wrap a := by
  have hstart : startIn wrap mdl Manager.empty = Manager.empty ∨
      startIn wrap mdl Manager.empty = Manager.empty.put (wrap .garbageCollector) "#error" := by
    unfold startIn
    split
    · exact .inr rfl
    · exact .inl rfl
  have hevent : ∃ e ∈ mdl.event,
      startIn wrap mdl Manager.empty = Manager.empty ∨ e.name ≠ "#error" := by
    by_contra hall
    refine h fun e he => ?_
    obtain ⟨hne, hname⟩ := not_or.mp fun hor => hall ⟨e, he, hor⟩
    refine ⟨?_, not_not.mp hname⟩
    by_contra herror
    refine hne ?_
    unfold startIn
    rw [if_neg (mt List.isEmpty_iff.mp herror)]
  obtain ⟨x, hx, hpointer⟩ := foldl_buildIn_exists _ hstart (ActionManager.handler mdl.error) hevent
  refine ⟨x, ?_, hpointer⟩
  unfold initIn
  dsimp only
  split
  · exact hx
  · exact Manager.mem_put_of_mem hx _ _

end InitIn

end Env

end Damaris
