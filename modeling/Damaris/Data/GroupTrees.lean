import Mathlib.Tactic
import Damaris.Data.LayoutChecks
import Damaris.Data.ScopedNames

/-!
# Registering a tree of groups

The data model declares layouts, variables and meshes at its root and in nested groups.
`LayoutManager::Init`, `VariableManager::Init` and `MeshManager::Init` walk the tree and create one
object for a declaration, under the name that the groups around it qualify. The parameters have
been read before.
-/
namespace Damaris.Data

open BoxLayout (ValueType TypedParameter)

/-- `model::MeshType`. -/
inductive MeshType
  | unknown
  | rectilinear
  | curvilinear
  | unstructured
  | point
  | csg
  | amr
  deriving DecidableEq

/-- What the creation of a mesh reads of its model. -/
structure MeshModel where
  name : Name
  type : MeshType
  deriving DecidableEq

/-- `model::Group`. -/
structure Group where
  name : Name
  enabled : Bool
  layout : List LayoutModel
  vars : List VariableModel
  mesh : List MeshModel
  group : List Group

/-- `model::Data`. -/
structure DataModel where
  layout : List LayoutModel
  vars : List VariableModel
  mesh : List MeshModel
  group : List Group

/-! ## The walk -/

section Walk

variable {M S : Type*} (members : Group → List M) (nameOf : M → Name) (create : S → M → Name → S)
  (needsEnabled : Bool)

mutual

/-- The recursion that the three managers repeat: the members of a group first, then its
sub-groups. -/
def readInSubGroup (groupName : Name) : Group → S → S
  | g@⟨_, enabled, _, _, _, groups⟩, s =>
    if needsEnabled && !enabled then s
    else
      readInSubGroups groupName groups
        ((members g).foldl (fun s m => create s m (groupName ++ '/' :: nameOf m)) s)

def readInSubGroups (groupName : Name) : List Group → S → S
  | [], s => s
  | g :: groups, s =>
    readInSubGroups groupName groups (readInSubGroup (groupName ++ '/' :: g.name) g s)

end

end Walk

/-! ## The managers -/

/-- A layout of a simple type, or one with descriptors. -/
inductive NamedLayout
  | type (mdl : ValueType)
  | box (mdl : LayoutModel) (vectors : Vectors)
  deriving DecidableEq

/-- `GetDimensions`. -/
def NamedLayout.dimensions : NamedLayout → ℕ
  | type _ => 1
  | box _ vectors => vectors.extents.length

structure NamedMesh where
  model : MeshModel
  name : Name
  deriving DecidableEq

/-- `Manager<Layout>`, `Manager<Variable>` and `Manager<Mesh>`. -/
structure Managers where
  layouts : Manager NamedLayout Name
  vars : Manager (NamedVariable NamedLayout) Name
  meshes : Manager NamedMesh Name

def Managers.empty : Managers := ⟨Manager.empty, Manager.empty, Manager.empty⟩

/-- `IsEmpty`. -/
def isEmpty {P : Type*} (m : Manager P Name) : Bool := decide (m.getNumObjects = 0)

namespace LayoutManager

variable (default : Language) (params : Str → Option TypedParameter) (t : Str → ℤ)

/-- The names of `AddSimpleTypes`. -/
def simpleTypes : List (Name × ValueType) :=
  [("short".toList, .short), ("int".toList, .int), ("integer".toList, .integer),
    ("long".toList, .long), ("float".toList, .float), ("real".toList, .real),
    ("double".toList, .double), ("char".toList, .char), ("character".toList, .character),
    ("label".toList, .label), ("string".toList, .string)]

/-- `AddSimpleTypes`; a `TypeLayout` takes its name from its type, which is the same. -/
def addSimpleTypes (m : Manager NamedLayout Name) : Manager NamedLayout Name :=
  m.createAll (simpleTypes.map fun d => (d.1, some (.type d.2)))

/-- `Create<BoxLayout>`, where a fault of the interpreter ends the run. -/
def createBox (m : Except Fault (Manager NamedLayout Name)) (mdl : LayoutModel) (name : Name) :
    Except Fault (Manager NamedLayout Name) :=
  m.bind fun m => (BoxLayout.new default params t mdl).map fun made =>
    (m.create (made.map (.box mdl)) name).1

/-- `readLayoutsInSubGroup`. -/
def readLayoutsInSubGroup : Name → Group → Except Fault (Manager NamedLayout Name) →
    Except Fault (Manager NamedLayout Name) :=
  readInSubGroup Group.layout LayoutModel.name (createBox default params t) false

/-- `LayoutManager::Init`. -/
def init (mdl : DataModel) (ms : Managers) : Except Fault Managers :=
  let m := mdl.layout.foldl (fun m l => createBox default params t m l l.name)
    (.ok (addSimpleTypes ms.layouts))
  let m := mdl.group.foldl (fun m g => readLayoutsInSubGroup default params t g.name g m) m
  m.map fun layouts => { ms with layouts := layouts }

end LayoutManager

namespace VariableManager

variable (default : Language) (params : Str → Option TypedParameter) (t : Str → ℤ)

/-- `Create<Variable>`. -/
def create (layouts : Manager NamedLayout Name) (m : Manager (NamedVariable NamedLayout) Name)
    (mdl : VariableModel) (name : Name) : Manager (NamedVariable NamedLayout) Name :=
  (m.create (NamedVariable.new layouts mdl name) name).1

/-- `readVariablesInSubGroup`. -/
def readVariablesInSubGroup (layouts : Manager NamedLayout Name) : Name → Group →
    Manager (NamedVariable NamedLayout) Name → Manager (NamedVariable NamedLayout) Name :=
  readInSubGroup Group.vars VariableModel.name (create layouts) false

/-- `VariableManager::Init`. -/
def init (mdl : DataModel) (ms : Managers) : Except Fault Managers :=
  (if isEmpty ms.layouts then LayoutManager.init default params t mdl ms else .ok ms).map fun ms =>
    let m := mdl.vars.foldl (fun m v => create ms.layouts m v v.name) ms.vars
    { ms with
      vars := mdl.group.foldl (fun m g => readVariablesInSubGroup ms.layouts g.name g m) m }

end VariableManager

/-- What the `New` of the mesh classes checks. -/
def newMesh (type : MeshType) (mdl : MeshModel) (name : Name) : Option NamedMesh :=
  if '/' ∈ mdl.name then none else if mdl.type ≠ type then none else some ⟨mdl, name⟩

/-- `RectilinearMesh::New`. -/
def RectilinearMesh.new : MeshModel → Name → Option NamedMesh := newMesh .rectilinear

/-- `CurvilinearMesh::New`, which checks the type first. -/
def CurvilinearMesh.new (mdl : MeshModel) (name : Name) : Option NamedMesh :=
  if mdl.type ≠ .curvilinear then none else if '/' ∈ mdl.name then none else some ⟨mdl, name⟩

/-- `PointMesh::New`. -/
def PointMesh.new : MeshModel → Name → Option NamedMesh := newMesh .point

/-- `UnstructuredMesh::New`. -/
def UnstructuredMesh.new : MeshModel → Name → Option NamedMesh := newMesh .unstructured

namespace MeshManager

variable (default : Language) (params : Str → Option TypedParameter) (t : Str → ℤ)

/-- The `switch` of `Init`. -/
def create (m : Manager NamedMesh Name) (mdl : MeshModel) : Manager NamedMesh Name :=
  match mdl.type with
  | .rectilinear => (m.create (RectilinearMesh.new mdl mdl.name) mdl.name).1
  | .curvilinear => (m.create (CurvilinearMesh.new mdl mdl.name) mdl.name).1
  | .point => (m.create (PointMesh.new mdl mdl.name) mdl.name).1
  | .unstructured => (m.create (UnstructuredMesh.new mdl mdl.name) mdl.name).1
  | _ => m

/-- The `switch` of `ReadMeshesInSubGroup`, which forgets the name of an unstructured mesh. -/
def createInSubGroup (m : Manager NamedMesh Name) (mdl : MeshModel) (meshName : Name) :
    Manager NamedMesh Name :=
  match mdl.type with
  | .rectilinear => (m.create (RectilinearMesh.new mdl meshName) meshName).1
  | .curvilinear => (m.create (CurvilinearMesh.new mdl meshName) meshName).1
  | .point => (m.create (PointMesh.new mdl meshName) meshName).1
  | .unstructured => (m.create (UnstructuredMesh.new mdl mdl.name) mdl.name).1
  | _ => m

/-- `ReadMeshesInSubGroup`. -/
def readMeshesInSubGroup : Name → Group → Manager NamedMesh Name → Manager NamedMesh Name :=
  readInSubGroup Group.mesh MeshModel.name createInSubGroup true

/-- `MeshManager::Init`. -/
def init (mdl : DataModel) (ms : Managers) : Except Fault Managers :=
  (if isEmpty ms.vars then VariableManager.init default params t mdl ms else .ok ms).map fun ms =>
    let m := mdl.mesh.foldl create ms.meshes
    { ms with meshes := mdl.group.foldl (fun m g => readMeshesInSubGroup g.name g m) m }

end MeshManager

/-- The three calls of `Environment::InitManagers`. -/
def initManagers (default : Language) (params : Str → Option TypedParameter) (t : Str → ℤ)
    (mdl : DataModel) : Except Fault Managers :=
  (LayoutManager.init default params t mdl Managers.empty).bind fun ms =>
    (VariableManager.init default params t mdl ms).bind fun ms =>
      MeshManager.init default params t mdl ms

/-! ## The declarations of a tree -/

@[simp] theorem qualified_nil (name : Name) : qualified [] name = name := by simp [qualified]

theorem qualified_concat (path : List Name) (g name : Name) :
    qualified (path ++ [g]) name = qualified path g ++ '/' :: name := by
  induction path with
  | nil => simp [qualified]
  | cons h path ih =>
    have hne : path ++ [g] ++ [name] ≠ [] := by simp
    have hne' : path ++ [g] ≠ [] := by simp
    rw [qualified, qualified] at ih ⊢
    rw [List.cons_append, List.cons_append, List.intercalate_cons_of_ne_nil hne,
      List.intercalate_cons_of_ne_nil hne', ih]
    simp

theorem slash_mem_qualified {path : List Name} (hpath : path ≠ []) (name : Name) :
    '/' ∈ qualified path name := by
  obtain ⟨outer, g, rfl⟩ := (List.eq_nil_or_concat' path).resolve_left hpath
  simp [qualified_concat]

section Declared

variable {M : Type*} (members : Group → List M)

mutual

/-- The members of a group and its sub-groups with the groups around them; `outer` are those
around the group itself. -/
def Group.declared (outer : List Name) : Group → List (List Name × M)
  | g@⟨name, _, _, _, _, groups⟩ =>
    (members g).map (fun m => (outer ++ [name], m)) ++ declaredIn (outer ++ [name]) groups

def declaredIn (outer : List Name) : List Group → List (List Name × M)
  | [] => []
  | g :: groups => g.declared outer ++ declaredIn outer groups

end

mutual

/-- The group and all groups within are enabled. -/
def Group.Enabled : Group → Prop
  | ⟨_, enabled, _, _, _, groups⟩ => enabled = true ∧ AllEnabled groups

def AllEnabled : List Group → Prop
  | [] => True
  | g :: groups => g.Enabled ∧ AllEnabled groups

end

variable {members} {S : Type*} {nameOf : M → Name} {create : S → M → Name → S} {needsEnabled : Bool}

mutual

/-- The walk creates what is declared, in the order of the declarations. -/
theorem readInSubGroup_eq (outer : List Name) : ∀ (g : Group) (s : S), g.Enabled →
    readInSubGroup members nameOf create needsEnabled (qualified outer g.name) g s =
      (g.declared members outer).foldl (fun s d => create s d.2 (qualified d.1 (nameOf d.2))) s
  | ⟨name, enabled, ls, vs, ms, groups⟩, s, h => by
    obtain ⟨henabled, hgroups⟩ := h
    have hread : (needsEnabled && !enabled) = false := by simp [henabled]
    rw [readInSubGroup, Group.declared, hread, List.foldl_append, List.foldl_map]
    simp only [Bool.false_eq_true, if_false, qualified_concat]
    exact readInSubGroups_eq outer name groups _ hgroups

theorem readInSubGroups_eq (outer : List Name) (name : Name) : ∀ (groups : List Group) (s : S),
    AllEnabled groups →
    readInSubGroups members nameOf create needsEnabled (qualified outer name) groups s =
      (declaredIn members (outer ++ [name]) groups).foldl
        (fun s d => create s d.2 (qualified d.1 (nameOf d.2))) s
  | [], _, _ => rfl
  | g :: groups, s, h => by
    obtain ⟨hg, hgroups⟩ := h
    rw [readInSubGroups, declaredIn, List.foldl_append, ← qualified_concat,
      readInSubGroup_eq (outer ++ [name]) g s hg]
    exact readInSubGroups_eq outer name groups _ hgroups

end

/-- All groups of the root. -/
theorem foldl_readInSubGroup (groups : List Group) (s : S) (h : AllEnabled groups) :
    groups.foldl (fun s g => readInSubGroup members nameOf create needsEnabled g.name g s) s =
      (declaredIn members [] groups).foldl
        (fun s d => create s d.2 (qualified d.1 (nameOf d.2))) s := by
  induction groups generalizing s with
  | nil => rfl
  | cons g groups ih =>
    obtain ⟨hg, hgroups⟩ := h
    have hwalk : readInSubGroup members nameOf create needsEnabled (qualified [] g.name) g s = _ :=
      readInSubGroup_eq [] g s hg
    rw [qualified_nil] at hwalk
    rw [List.foldl_cons, hwalk, declaredIn, List.foldl_append]
    exact ih _ hgroups

end Declared

/-! ## What is to be registered -/

namespace DataModel

/-- All declarations of one kind, with the groups around them. -/
def declared {M : Type*} (root : DataModel → List M) (members : Group → List M) (mdl : DataModel) :
    List (List Name × M) :=
  (root mdl).map (fun m => ([], m)) ++ declaredIn members [] mdl.group

/-- The layouts under their full names, with the simple types. -/
def declaredLayouts (mdl : DataModel) : List (Name × (ValueType ⊕ LayoutModel)) :=
  LayoutManager.simpleTypes.map (fun d => (d.1, .inl d.2)) ++
    (mdl.declared layout Group.layout).map fun d => (qualified d.1 d.2.name, .inr d.2)

def declaredVars (mdl : DataModel) : List (Name × VariableModel) :=
  (mdl.declared vars Group.vars).map fun d => (qualified d.1 d.2.name, d.2)

/-- The meshes that the managers know how to create. -/
def supported (mdl : DataModel) : List (List Name × MeshModel) :=
  (mdl.declared mesh Group.mesh).filter fun d =>
    d.2.type ∈ [.rectilinear, .curvilinear, .point, .unstructured]

def declaredMeshes (mdl : DataModel) : List (Name × MeshModel) :=
  mdl.supported.map fun d => (qualified d.1 d.2.name, d.2)

/-- The layout that the variable of this full name refers to is declared. -/
def LayoutDeclared (mdl : DataModel) (name : Name) (v : VariableModel) : Prop :=
  let search := fun n => mdl.declaredLayouts.find? fun d => d.1 = n
  if '/' ∈ v.layout then (search v.layout).isSome
  else (searchInGroups search v.layout (split name).reverse).isSome

instance (mdl : DataModel) (name : Name) (v : VariableModel) :
    Decidable (mdl.LayoutDeclared name v) := by
  unfold LayoutDeclared
  infer_instance

/-- All groups are enabled, the declarations are valid, and no two objects of a kind have the same
full name. -/
structure Valid (default : Language) (params : Str → Option TypedParameter) (t : Str → ℤ)
    (mdl : DataModel) : Prop where
  enabled : AllEnabled mdl.group
  layouts : ∀ d ∈ mdl.declared layout Group.layout,
    ∃ vectors, BoxLayout.new default params t d.2 = .ok (some vectors)
  vars : ∀ d ∈ mdl.declaredVars, '/' ∉ d.2.name ∧ mdl.LayoutDeclared d.1 d.2
  meshes : ∀ d ∈ mdl.supported, '/' ∉ d.2.name
  distinctLayouts : (mdl.declaredLayouts.map Prod.fst).Nodup
  distinctVariables : (mdl.declaredVars.map Prod.fst).Nodup
  distinctMeshes : (mdl.declaredMeshes.map Prod.fst).Nodup

end DataModel

/-- What is declared is found under its full name, and nothing else is. -/
structure Registers {P M : Type*} (model : P → M) (m : Manager P Name) (ds : List (Name × M)) :
    Prop where
  complete : ∀ d ∈ ds, ∃ p, m.found d.1 = some p ∧ model p = d.2
  exact : ∀ name p, m.found name = some p → (name, model p) ∈ ds

def NamedLayout.model : NamedLayout → ValueType ⊕ LayoutModel
  | type mdl => .inl mdl
  | box mdl _ => .inr mdl

structure FullyRegistered (mdl : DataModel) (ms : Managers) : Prop where
  layouts : Registers NamedLayout.model ms.layouts mdl.declaredLayouts
  vars : Registers NamedVariable.model ms.vars mdl.declaredVars
  meshes : Registers NamedMesh.model ms.meshes mdl.declaredMeshes

/-- No unstructured mesh is declared in a group, and an `int` numbers the objects. -/
structure Registrable (mdl : DataModel) : Prop where
  rooted : ∀ d ∈ mdl.supported, d.2.type = .unstructured → d.1 = []
  layouts : mdl.declaredLayouts.length ≤ 2 ^ 32
  vars : mdl.declaredVars.length ≤ 2 ^ 32
  meshes : mdl.declaredMeshes.length ≤ 2 ^ 32

/-! ## One manager -/

section OneManager

variable {P M : Type*} {model : P → M} {ds : List (Name × M)} {made : Name × M → Option P}

theorem findSome?_of_nodup (hnodup : (ds.map Prod.fst).Nodup) {d : Name × M} (hd : d ∈ ds) {p : P}
    (hp : made d = some p) : ds.findSome? (fun e => if d.1 = e.1 then made e else none) = some p := by
  induction ds with
  | nil => cases hd
  | cons e ds ih =>
    rw [List.map_cons, List.nodup_cons] at hnodup
    rw [List.findSome?_cons]
    obtain rfl | hd := List.mem_cons.mp hd
    · rw [if_pos rfl, hp]
    · have hne : d.1 ≠ e.1 := fun he => hnodup.1 (he ▸ List.mem_map_of_mem hd)
      rw [if_neg hne]
      exact ih hnodup.2 hd

/-- Objects that are made as declared, under distinct names and not too many. -/
theorem registers_createAll (made : Name × M → Option P)
    (hmade : ∀ d ∈ ds, ∃ p, made d = some p ∧ model p = d.2)
    (hnodup : (ds.map Prod.fst).Nodup) (hlen : ds.length ≤ 2 ^ 32) :
    Registers model (Manager.empty.createAll (ds.map fun d => (d.1, made d))) ds := by
  have hcard : (ds.map Prod.fst).toFinset.card ≤ 2 ^ 32 := by
    rw [List.toFinset_card_of_nodup hnodup, List.length_map]
    exact hlen
  have hfound : ∀ n, (Manager.empty.createAll (ds.map fun d => (d.1, made d))).found n =
      ds.findSome? fun d => if n = d.1 then made d else none := by
    intro n
    have hnames : ∀ x ∈ (Manager.empty : Manager P Name).objects,
        x.name ∈ (ds.map Prod.fst).toFinset := fun x hx => absurd hx (KeyedStore.notMem_empty x)
    rw [Manager.numbered_empty.found_createAll hnames hcard, Manager.found_empty, Option.none_or,
      List.findSome?_map]
    · rfl
    · intro e he
      obtain ⟨d, hd, rfl⟩ := List.mem_map.mp he
      exact List.mem_toFinset.mpr (List.mem_map_of_mem hd)
  refine ⟨fun d hd => ?_, fun n p hp => ?_⟩
  · obtain ⟨p, hp, hmodel⟩ := hmade d hd
    exact ⟨p, (hfound d.1).trans (findSome?_of_nodup hnodup hd hp), hmodel⟩
  · rw [hfound] at hp
    obtain ⟨d, hd, hdp⟩ := List.exists_of_findSome?_eq_some hp
    obtain ⟨hn, hdp⟩ := Option.ite_none_right_eq_some.mp hdp
    obtain ⟨q, hq, hmodel⟩ := hmade d hd
    obtain rfl : q = p := Option.some.inj (hq.symm.trans hdp)
    rw [hn, hmodel]
    exact hd

/-- Names that are taken change nothing. -/
theorem createAll_of_found {m : Manager P Name} {es : List (Name × Option P)}
    (h : ∀ e ∈ es, (m.found e.1).isSome) : m.createAll es = m := by
  induction es with
  | nil => rfl
  | cons e es ih =>
    obtain ⟨he, hes⟩ := List.forall_mem_cons.mp h
    have hsame : (m.create e.2 e.1).1 = m := by
      obtain ⟨name, made⟩ := e
      cases made with
      | none => rfl
      | some p =>
        rw [Manager.create_fst]
        refine (m.put_cases p name).resolve_left ?_
        rintro ⟨hnone, -⟩
        simp [Manager.found, hnone] at he
    rw [Manager.createAll_cons, hsame]
    exact ih hes

theorem Registers.length_le {m : Manager P Name} (h : Registers model m ds) (hm : m.Numbered)
    (hnodup : (ds.map Prod.fst).Nodup) : ds.length ≤ 2 ^ 32 := by
  rw [← List.length_map (f := Prod.fst)]
  refine hm.length_le_of_found hnodup fun n hn => ?_
  obtain ⟨d, hd, rfl⟩ := List.mem_map.mp hn
  obtain ⟨p, hp, -⟩ := h.complete d hd
  exact Option.isSome_iff_exists.mpr ⟨p, hp⟩

end OneManager

/-! ## The three initialisations -/

section Init

variable {default : Language} {params : Str → Option TypedParameter} {t : Str → ℤ}
  {mdl : DataModel} {layouts : Manager NamedLayout Name}
  {vars : Manager (NamedVariable NamedLayout) Name} {meshes : Manager NamedMesh Name}

/-- The root and the groups together. -/
theorem foldl_declared {M S : Type*} (root : DataModel → List M) (members : Group → List M)
    (nameOf : M → Name) (create : S → M → Name → S) (needsEnabled : Bool) (s : S)
    (h : AllEnabled mdl.group) :
    mdl.group.foldl (fun s g => readInSubGroup members nameOf create needsEnabled g.name g s)
        ((root mdl).foldl (fun s m => create s m (nameOf m)) s) =
      (mdl.declared root members).foldl (fun s d => create s d.2 (qualified d.1 (nameOf d.2))) s := by
  rw [foldl_readInSubGroup mdl.group _ h, DataModel.declared, List.foldl_append, List.foldl_map]
  simp only [qualified_nil]

variable (default params t) in
/-- The object of a layout. -/
def madeLayout : ValueType ⊕ LayoutModel → Option NamedLayout
  | .inl type => some (.type type)
  | .inr mdl => (BoxLayout.new default params t mdl).toOption.join.map (.box mdl)

variable (default params t mdl) in
def layoutCreations : List (Name × Option NamedLayout) :=
  mdl.declaredLayouts.map fun d => (d.1, madeLayout default params t d.2)

theorem foldl_createBox {ds : List (List Name × LayoutModel)} {m : Manager NamedLayout Name}
    (h : ∀ d ∈ ds, ∃ vectors, BoxLayout.new default params t d.2 = .ok (some vectors)) :
    ds.foldl (fun s d => LayoutManager.createBox default params t s d.2 (qualified d.1 d.2.name))
        (.ok m) =
      .ok (m.createAll (ds.map fun d =>
        (qualified d.1 d.2.name, madeLayout default params t (.inr d.2)))) := by
  induction ds generalizing m with
  | nil => rfl
  | cons d ds ih =>
    obtain ⟨⟨vectors, hd⟩, hds⟩ := List.forall_mem_cons.mp h
    have hstep : LayoutManager.createBox default params t (.ok m) d.2 (qualified d.1 d.2.name) =
        .ok (m.create (madeLayout default params t (.inr d.2)) (qualified d.1 d.2.name)).1 := by
      simp only [LayoutManager.createBox, madeLayout, Except.bind, hd]
      rfl
    rw [List.foldl_cons, hstep]
    exact ih hds

theorem layoutInit_eq (h : mdl.Valid default params t) :
    LayoutManager.init default params t mdl ⟨layouts, vars, meshes⟩ =
      .ok ⟨layouts.createAll (layoutCreations default params t mdl), vars, meshes⟩ := by
  have hfold := foldl_declared DataModel.layout Group.layout LayoutModel.name
    (LayoutManager.createBox default params t) false
    (.ok (LayoutManager.addSimpleTypes layouts)) h.enabled
  rw [foldl_createBox h.layouts] at hfold
  have hcreations : (LayoutManager.addSimpleTypes layouts).createAll
      ((mdl.declared DataModel.layout Group.layout).map fun d =>
        (qualified d.1 d.2.name, madeLayout default params t (.inr d.2))) =
      layouts.createAll (layoutCreations default params t mdl) := by
    rw [LayoutManager.addSimpleTypes, ← Manager.createAll_append, layoutCreations,
      DataModel.declaredLayouts, List.map_append, List.map_map, List.map_map]
    rfl
  simp only [LayoutManager.init, LayoutManager.readLayoutsInSubGroup]
  rw [hfold, hcreations]
  rfl

variable (mdl) in
def variableCreations (layouts : Manager NamedLayout Name) :
    List (Name × Option (NamedVariable NamedLayout)) :=
  mdl.declaredVars.map fun d => (d.1, NamedVariable.new layouts d.2 d.1)

/-- `VariableManager::Init` after its look at the layouts. -/
theorem variableInit_eq (ms : Managers) (h : mdl.Valid default params t)
    (hlayouts : (if isEmpty ms.layouts then LayoutManager.init default params t mdl ms else .ok ms) =
      .ok ⟨layouts, vars, meshes⟩) :
    VariableManager.init default params t mdl ms =
      .ok ⟨layouts, vars.createAll (variableCreations mdl layouts), meshes⟩ := by
  have hfold := foldl_declared DataModel.vars Group.vars VariableModel.name
    (VariableManager.create layouts) false vars h.enabled
  have hcreations : (mdl.declared DataModel.vars Group.vars).foldl
      (fun s d => VariableManager.create layouts s d.2 (qualified d.1 d.2.name)) vars =
      vars.createAll (variableCreations mdl layouts) := by
    rw [variableCreations, DataModel.declaredVars, List.map_map, Manager.createAll, List.foldl_map]
    rfl
  rw [VariableManager.init, hlayouts]
  simp only [Except.map, VariableManager.readVariablesInSubGroup]
  rw [hfold, hcreations]

/-- The name that an unstructured mesh is created under is not the one it is asked for. -/
def registeredName (mdl : MeshModel) (name : Name) : Name :=
  if mdl.type = .unstructured then mdl.name else name

def madeMesh (mdl : MeshModel) (name : Name) : Option NamedMesh := newMesh mdl.type mdl name

variable (mdl) in
def meshCreations : List (Name × Option NamedMesh) :=
  mdl.supported.map fun d =>
    (registeredName d.2 (qualified d.1 d.2.name),
      madeMesh d.2 (registeredName d.2 (qualified d.1 d.2.name)))

theorem curvilinear_new_eq (mdl : MeshModel) (name : Name) :
    CurvilinearMesh.new mdl name = newMesh .curvilinear mdl name := by
  rw [CurvilinearMesh.new, newMesh]
  split_ifs <;> rfl

theorem createInSubGroup_eq (m : Manager NamedMesh Name) (mdl : MeshModel) (name : Name) :
    MeshManager.createInSubGroup m mdl name =
      if decide (mdl.type ∈ [.rectilinear, .curvilinear, .point, .unstructured]) then
        (m.create (madeMesh mdl (registeredName mdl name)) (registeredName mdl name)).1
      else m := by
  obtain ⟨n, type⟩ := mdl
  cases type <;>
    simp [MeshManager.createInSubGroup, madeMesh, registeredName, curvilinear_new_eq,
      RectilinearMesh.new, PointMesh.new, UnstructuredMesh.new]

/-- `MeshManager::Init` after its look at the variables. -/
theorem meshInit_eq (ms : Managers) (h : mdl.Valid default params t)
    (hvars : (if isEmpty ms.vars then VariableManager.init default params t mdl ms else .ok ms) =
      .ok ⟨layouts, vars, meshes⟩) :
    MeshManager.init default params t mdl ms =
      .ok ⟨layouts, vars, meshes.createAll (meshCreations mdl)⟩ := by
  have hroot : MeshManager.create = fun m d => MeshManager.createInSubGroup m d d.name := rfl
  have hfold := foldl_declared DataModel.mesh Group.mesh MeshModel.name
    MeshManager.createInSubGroup true meshes h.enabled
  have hcreations : (mdl.declared DataModel.mesh Group.mesh).foldl
      (fun s d => MeshManager.createInSubGroup s d.2 (qualified d.1 d.2.name)) meshes =
      meshes.createAll (meshCreations mdl) := by
    rw [meshCreations, DataModel.supported, Manager.createAll, List.foldl_map, List.foldl_filter]
    simp only [createInSubGroup_eq]
  rw [MeshManager.init, hvars]
  simp only [Except.map, MeshManager.readMeshesInSubGroup, hroot]
  rw [hfold, hcreations]

/-! ## When all is registered -/

theorem searchInGroups_isSome {α β : Type*} {search : Name → Option α} {search' : Name → Option β}
    (h : ∀ n, (search n).isSome = (search' n).isSome) (name : Name) (groups : List Name) :
    (searchInGroups search name groups).isSome = (searchInGroups search' name groups).isSome := by
  induction groups with
  | nil => rfl
  | cons last groups ih =>
    rw [searchInGroups_cons, searchInGroups_cons, Option.isSome_or, Option.isSome_or, ih, h]

theorem Registers.search_isSome {P M : Type*} {model : P → M} {m : Manager P Name}
    {ds : List (Name × M)} (h : Registers model m ds) (n : Name) :
    (m.search n).isSome = (ds.find? fun d => decide (d.1 = n)).isSome := by
  have hfound : (m.search n).isSome = (m.found n).isSome := by rw [Manager.found, Option.isSome_map]
  rw [hfound, Bool.eq_iff_iff, List.find?_isSome]
  constructor
  · intro hsome
    obtain ⟨p, hp⟩ := Option.isSome_iff_exists.mp hsome
    exact ⟨_, h.exact n p hp, decide_eq_true rfl⟩
  · rintro ⟨d, hd, hn⟩
    obtain ⟨p, hp, -⟩ := h.complete d hd
    exact Option.isSome_iff_exists.mpr ⟨p, of_decide_eq_true hn ▸ hp⟩

theorem registers_layouts (h : mdl.Valid default params t)
    (hlen : mdl.declaredLayouts.length ≤ 2 ^ 32) :
    Registers NamedLayout.model
      (Manager.empty.createAll (layoutCreations default params t mdl)) mdl.declaredLayouts := by
  refine registers_createAll (fun d => madeLayout default params t d.2) (fun d hd => ?_)
    h.distinctLayouts hlen
  obtain hd | hd := List.mem_append.mp hd
  · obtain ⟨e, -, rfl⟩ := List.mem_map.mp hd
    exact ⟨_, rfl, rfl⟩
  · obtain ⟨e, he, rfl⟩ := List.mem_map.mp hd
    obtain ⟨vectors, hnew⟩ := h.layouts e he
    refine ⟨.box e.2 vectors, ?_, rfl⟩
    simp only [madeLayout, hnew]
    rfl

theorem registers_vars (h : mdl.Valid default params t) (hlen : mdl.declaredVars.length ≤ 2 ^ 32)
    {layouts : Manager NamedLayout Name}
    (hlayouts : Registers NamedLayout.model layouts mdl.declaredLayouts) :
    Registers NamedVariable.model (Manager.empty.createAll (variableCreations mdl layouts))
      mdl.declaredVars := by
  refine registers_createAll (fun d => NamedVariable.new layouts d.2 d.1) (fun d hd => ?_)
    h.distinctVariables hlen
  obtain ⟨hname, hdeclared⟩ := h.vars d hd
  have hfind : (d.2.findLayout layouts d.1).isSome := by
    rw [DataModel.LayoutDeclared] at hdeclared
    rw [VariableModel.findLayout]
    by_cases hslash : '/' ∈ d.2.layout
    · rw [if_pos hslash] at hdeclared ⊢
      rw [hlayouts.search_isSome]
      exact hdeclared
    · rw [if_neg hslash] at hdeclared ⊢
      rw [searchInGroups_isSome hlayouts.search_isSome]
      exact hdeclared
  obtain ⟨l, hl⟩ := Option.isSome_iff_exists.mp hfind
  exact ⟨⟨d.2, l, d.1⟩, by rw [NamedVariable.new, if_neg hname, hl, Option.map_some], rfl⟩

theorem registers_meshes (h : mdl.Valid default params t) (hr : Registrable mdl) :
    Registers NamedMesh.model (Manager.empty.createAll (meshCreations mdl)) mdl.declaredMeshes := by
  have hcreations : meshCreations mdl =
      mdl.declaredMeshes.map fun d => (d.1, madeMesh d.2 d.1) := by
    rw [meshCreations, DataModel.declaredMeshes, List.map_map]
    refine List.map_congr_left fun d hd => ?_
    have hname : registeredName d.2 (qualified d.1 d.2.name) = qualified d.1 d.2.name := by
      rw [registeredName]
      split_ifs with htype
      · rw [hr.rooted d hd htype, qualified_nil]
      · rfl
    simp only [hname, Function.comp_apply]
  rw [hcreations]
  refine registers_createAll (fun d => madeMesh d.2 d.1) (fun d hd => ?_)
    h.distinctMeshes hr.meshes
  obtain ⟨e, he, rfl⟩ := List.mem_map.mp hd
  refine ⟨⟨e.2, qualified e.1 e.2.name⟩, ?_, rfl⟩
  rw [madeMesh, newMesh, if_neg (h.meshes e he), if_neg (not_not.mpr rfl)]

/-- A manager that has all objects is not changed by a second initialisation. -/
theorem Registers.createAll_again {P M : Type*} {model : P → M} {m : Manager P Name}
    {ds : List (Name × M)} {made : Name × M → Option P} (h : Registers model m ds) :
    m.createAll (ds.map fun d => (d.1, made d)) = m := by
  refine createAll_of_found fun e he => ?_
  obtain ⟨d, hd, rfl⟩ := List.mem_map.mp he
  obtain ⟨p, hp, -⟩ := h.complete d hd
  exact Option.isSome_iff_exists.mpr ⟨p, hp⟩

theorem ok_bind {α β : Type*} (a : α) (f : α → Except Fault β) : (Except.ok a).bind f = f a := rfl

/-- The later initialisations find nothing to do again. -/
theorem initManagers_eq (h : mdl.Valid default params t)
    (hlayouts : Manager.empty.createAll (layoutCreations default params t mdl) = layouts)
    (hvars : Manager.empty.createAll (variableCreations mdl layouts) = vars)
    (hmeshes : Manager.empty.createAll (meshCreations mdl) = meshes)
    (hlayoutsReg : Registers NamedLayout.model layouts mdl.declaredLayouts)
    (hvarsReg : Registers NamedVariable.model vars mdl.declaredVars) :
    initManagers default params t mdl = .ok ⟨layouts, vars, meshes⟩ := by
  have hlayoutInit : ∀ v ms, (if isEmpty layouts then
      LayoutManager.init default params t mdl ⟨layouts, v, ms⟩ else .ok ⟨layouts, v, ms⟩) =
        .ok ⟨layouts, v, ms⟩ := by
    intro v ms
    rw [layoutInit_eq h, layoutCreations, hlayoutsReg.createAll_again, ite_self]
  have hvarInit : ∀ ms, (if isEmpty vars then
      VariableManager.init default params t mdl ⟨layouts, vars, ms⟩
        else .ok ⟨layouts, vars, ms⟩) = .ok ⟨layouts, vars, ms⟩ := by
    intro ms
    rw [variableInit_eq ⟨layouts, vars, ms⟩ h (hlayoutInit vars ms), variableCreations,
      hvarsReg.createAll_again, ite_self]
  have hfirst : LayoutManager.init default params t mdl Managers.empty =
      .ok ⟨layouts, Manager.empty, Manager.empty⟩ := by
    rw [Managers.empty, layoutInit_eq h, hlayouts]
  have hsecond : VariableManager.init default params t mdl
      ⟨layouts, Manager.empty, Manager.empty⟩ = .ok ⟨layouts, vars, Manager.empty⟩ := by
    rw [variableInit_eq ⟨layouts, Manager.empty, Manager.empty⟩ h
      (hlayoutInit Manager.empty Manager.empty), hvars]
  rw [initManagers, hfirst, ok_bind, hsecond, ok_bind,
    meshInit_eq ⟨layouts, vars, Manager.empty⟩ h (hvarInit Manager.empty), hmeshes]

theorem fullyRegistered_of_registrable (h : mdl.Valid default params t) (hr : Registrable mdl) :
    ∃ ms, initManagers default params t mdl = .ok ms ∧ FullyRegistered mdl ms := by
  obtain ⟨layouts, hlayouts⟩ : ∃ layouts,
    Manager.empty.createAll (layoutCreations default params t mdl) = layouts := ⟨_, rfl⟩
  have hlayoutsReg := hlayouts ▸ registers_layouts h hr.layouts
  obtain ⟨vars, hvars⟩ : ∃ vars,
    Manager.empty.createAll (variableCreations mdl layouts) = vars := ⟨_, rfl⟩
  have hvarsReg := hvars ▸ registers_vars h hr.vars hlayoutsReg
  obtain ⟨meshes, hmeshes⟩ : ∃ meshes,
    Manager.empty.createAll (meshCreations mdl) = meshes := ⟨_, rfl⟩
  exact ⟨⟨layouts, vars, meshes⟩, initManagers_eq h hlayouts hvars hmeshes hlayoutsReg hvarsReg,
    ⟨hlayoutsReg, hvarsReg, hmeshes ▸ registers_meshes h hr⟩⟩

/-! ## When it is not -/

/-- What any run of the three initialisations leaves behind. -/
structure Built (mdl : DataModel) (ms : Managers) : Prop where
  layouts : ms.layouts.Numbered
  vars : ms.vars.Numbered
  meshes : ms.meshes.Numbered
  made : ∀ x ∈ ms.meshes.objects, (x.name, some x.pointer) ∈ meshCreations mdl

theorem built_layoutInit (h : mdl.Valid default params t) {ms ms' : Managers} (hb : Built mdl ms)
    (hinit : LayoutManager.init default params t mdl ms = .ok ms') : Built mdl ms' := by
  obtain ⟨layouts, vars, meshes⟩ := ms
  have hnumbered := hb.layouts.createAll (layoutCreations default params t mdl)
  rw [layoutInit_eq h] at hinit
  dsimp only at hnumbered
  generalize layouts.createAll (layoutCreations default params t mdl) = layouts' at hnumbered hinit
  cases hinit
  exact ⟨hnumbered, hb.vars, hb.meshes, hb.made⟩

theorem built_variableInit (h : mdl.Valid default params t) {ms ms' : Managers} (hb : Built mdl ms)
    (hinit : VariableManager.init default params t mdl ms = .ok ms') : Built mdl ms' := by
  cases hpre : (if isEmpty ms.layouts then LayoutManager.init default params t mdl ms else .ok ms)
  with
  | error e =>
    rw [VariableManager.init, hpre] at hinit
    cases hinit
  | ok ms₁ =>
    have hb₁ : Built mdl ms₁ := by
      split at hpre
      · exact built_layoutInit h hb hpre
      · cases hpre
        exact hb
    obtain ⟨layouts, vars, meshes⟩ := ms₁
    have hnumbered := hb₁.vars.createAll (variableCreations mdl layouts)
    rw [variableInit_eq ms h hpre] at hinit
    dsimp only at hnumbered
    generalize vars.createAll (variableCreations mdl layouts) = vars' at hnumbered hinit
    cases hinit
    exact ⟨hb₁.layouts, hnumbered, hb₁.meshes, hb₁.made⟩

theorem built_meshInit (h : mdl.Valid default params t) {ms ms' : Managers} (hb : Built mdl ms)
    (hinit : MeshManager.init default params t mdl ms = .ok ms') : Built mdl ms' := by
  cases hpre : (if isEmpty ms.vars then VariableManager.init default params t mdl ms else .ok ms)
  with
  | error e =>
    rw [MeshManager.init, hpre] at hinit
    cases hinit
  | ok ms₁ =>
    have hb₁ : Built mdl ms₁ := by
      split at hpre
      · exact built_variableInit h hb hpre
      · cases hpre
        exact hb
    obtain ⟨layouts, vars, meshes⟩ := ms₁
    have hnumbered := hb₁.meshes.createAll (meshCreations mdl)
    have hmade : ∀ x ∈ (meshes.createAll (meshCreations mdl)).objects,
        (x.name, some x.pointer) ∈ meshCreations mdl :=
      fun x hx => (Manager.mem_createAll hx).elim (hb₁.made x) id
    rw [meshInit_eq ms h hpre] at hinit
    dsimp only at hnumbered
    generalize meshes.createAll (meshCreations mdl) = meshes' at hnumbered hmade hinit
    cases hinit
    exact ⟨hb₁.layouts, hb₁.vars, hnumbered, hmade⟩

theorem built_initManagers (h : mdl.Valid default params t) {ms : Managers}
    (hinit : initManagers default params t mdl = .ok ms) : Built mdl ms := by
  have hempty : Built mdl Managers.empty :=
    ⟨Manager.numbered_empty, Manager.numbered_empty, Manager.numbered_empty,
      fun x hx => absurd hx (KeyedStore.notMem_empty x)⟩
  rw [initManagers] at hinit
  cases h₁ : LayoutManager.init default params t mdl Managers.empty with
  | error e =>
    rw [h₁] at hinit
    cases hinit
  | ok ms₁ =>
    rw [h₁, ok_bind] at hinit
    cases h₂ : VariableManager.init default params t mdl ms₁ with
    | error e =>
      rw [h₂] at hinit
      cases hinit
    | ok ms₂ =>
      rw [h₂, ok_bind] at hinit
      exact built_meshInit h (built_variableInit h (built_layoutInit h hempty h₁) h₂) hinit

/-- An unstructured mesh of a group is not found under its full name. -/
theorem rooted_of_registers (h : mdl.Valid default params t) {ms : Managers} (hb : Built mdl ms)
    (hreg : Registers NamedMesh.model ms.meshes mdl.declaredMeshes) :
    ∀ d ∈ mdl.supported, d.2.type = .unstructured → d.1 = [] := by
  intro d hd htype
  by_contra hpath
  have hslash := slash_mem_qualified hpath d.2.name
  obtain ⟨p, hp, -⟩ := hreg.complete _ (List.mem_map_of_mem hd)
  obtain ⟨x, hx, hname, -⟩ := Manager.found_eq_some.mp hp
  obtain ⟨e, he, heq⟩ := List.mem_map.mp (hb.made x hx)
  have hregistered : registeredName e.2 (qualified e.1 e.2.name) = qualified d.1 d.2.name :=
    (congrArg Prod.fst heq).trans hname
  rw [registeredName] at hregistered
  split_ifs at hregistered with hun
  · exact h.meshes e he (hregistered ▸ hslash)
  · have hsame : (qualified e.1 e.2.name, e.2) = (qualified d.1 d.2.name, d.2) :=
      List.inj_on_of_nodup_map h.distinctMeshes (List.mem_map_of_mem he) (List.mem_map_of_mem hd)
        hregistered
    exact hun ((congrArg (fun q : Name × MeshModel => q.2.type) hsame).trans htype)

theorem registrable_of_fullyRegistered (h : mdl.Valid default params t) {ms : Managers}
    (hinit : initManagers default params t mdl = .ok ms) (hreg : FullyRegistered mdl ms) :
    Registrable mdl := by
  have hb := built_initManagers h hinit
  exact {
    rooted := rooted_of_registers h hb hreg.meshes
    layouts := hreg.layouts.length_le hb.layouts h.distinctLayouts
    vars := hreg.vars.length_le hb.vars h.distinctVariables
    meshes := hreg.meshes.length_le hb.meshes h.distinctMeshes }

end Init

/-- Of a valid data model everything is registered, and nothing else, exactly when its unstructured
meshes all stand at the root and no manager runs out of ids. -/
theorem fullyRegistered_iff (default : Language) (params : Str → Option TypedParameter)
    (t : Str → ℤ) (mdl : DataModel) (h : mdl.Valid default params t) :
    (∃ ms, initManagers default params t mdl = .ok ms ∧ FullyRegistered mdl ms) ↔
      Registrable mdl := by
  constructor
  · rintro ⟨ms, hinit, hreg⟩
    exact registrable_of_fullyRegistered h hinit hreg
  · exact fullyRegistered_of_registrable h

/-- A variable and a mesh of a supported type in a group, an unstructured mesh at the root. -/
def rootedModel : DataModel where
  layout := []
  vars := []
  mesh := [⟨"u".toList, .unstructured⟩]
  group := [⟨"g".toList, true, [], [⟨"v".toList, "int".toList⟩], [⟨"m".toList, .rectilinear⟩], []⟩]

theorem rootedModel_valid : rootedModel.Valid .c (fun _ => none) (fun _ => 0) where
  enabled := ⟨⟨rfl, trivial⟩, trivial⟩
  layouts d hd := by cases hd
  vars d hd := by
    obtain rfl := List.mem_singleton.mp hd
    decide
  meshes d hd := by
    obtain rfl | hd := List.mem_cons.mp hd
    · decide
    · obtain rfl := List.mem_singleton.mp hd
      decide
  distinctLayouts := by decide
  distinctVariables := by decide
  distinctMeshes := by decide

theorem fullyRegistered_rootedModel :
    ∃ ms, initManagers .c (fun _ => none) (fun _ => 0) rootedModel = .ok ms ∧
      FullyRegistered rootedModel ms := by
  refine (fullyRegistered_iff .c (fun _ => none) (fun _ => 0) rootedModel rootedModel_valid).mpr
    ⟨?_, by decide, by decide, by decide⟩
  intro d hd htype
  obtain rfl | hd := List.mem_cons.mp hd
  · rfl
  · obtain rfl := List.mem_singleton.mp hd
    cases htype

/-- An unstructured mesh in a group. -/
def unstructuredInGroup : DataModel where
  layout := []
  vars := []
  mesh := []
  group := [⟨"g".toList, true, [], [], [⟨"m".toList, .unstructured⟩], []⟩]

theorem unstructuredInGroup_valid : unstructuredInGroup.Valid .c (fun _ => none) (fun _ => 0) where
  enabled := ⟨⟨rfl, trivial⟩, trivial⟩
  layouts d hd := by cases hd
  vars d hd := by cases hd
  meshes d hd := by
    obtain rfl := List.mem_singleton.mp hd
    decide
  distinctLayouts := by decide
  distinctVariables := by decide
  distinctMeshes := by decide

/-- The mesh `m` of the group `g` cannot be found under `g/m`. -/
theorem not_all_registered : ¬ ∀ (default : Language) (params : Str → Option TypedParameter)
    (t : Str → ℤ) (mdl : DataModel), mdl.Valid default params t →
    ∃ ms, initManagers default params t mdl = .ok ms ∧ FullyRegistered mdl ms := by
  intro hall
  obtain ⟨ms, hinit, hreg⟩ :=
    hall .c (fun _ => none) (fun _ => 0) unstructuredInGroup unstructuredInGroup_valid
  have hrooted := (registrable_of_fullyRegistered unstructuredInGroup_valid hinit hreg).rooted
  exact absurd (hrooted (["g".toList], ⟨"m".toList, .unstructured⟩) (by decide) rfl) (by decide)

end Damaris.Data
