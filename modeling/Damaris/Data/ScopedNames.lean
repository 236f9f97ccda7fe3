import Mathlib.Tactic
import Damaris.Util.Manager

/-!
# Names relative to a group

The full name of an object lists the groups around it, `g1/../gk/v`. A variable names its layout,
a mesh and a curve name variables: a name with a slash is taken as it is, any other is looked up in
the groups around, the innermost first.
-/
namespace Damaris.Data

/-- A `std::string`. -/
abbrev Name := List Char

/-- The name of one group or object within the group around it. -/
structure Component where
  chars : Name
  plain : '/' ∉ chars

/-- `g1/../gk/name`. -/
def qualified (path : List Name) (name : Name) : Name := ['/'].intercalate (path ++ [name])

def fullName (groups : List Component) (n : Component) : Name :=
  qualified (groups.map Component.chars) n.chars

/-- `boost::split` at every slash. -/
def split (name : Name) : List Name := name.splitOn '/'

/-- `absoluteName` in the loops below. -/
def absoluteName (groups : List Name) (name : Name) : Name :=
  match groups with
  | [] => name
  | g :: gs => gs.foldl (fun a g => a ++ '/' :: g) g ++ '/' :: name

/-- The loop that the source repeats at each look-up. The last group comes first here, which is
the one that `pop_back` takes. -/
def searchInGroups {α : Type*} (search : Name → Option α) (name : Name) : List Name → Option α
  | [] => none
  | _ :: groups =>
    match search (absoluteName groups.reverse name) with
    | some v => some v
    | none => searchInGroups search name groups

/-! ## The three look-ups -/

variable {L V : Type*}

/-- What `Variable::New` reads of the model of a variable. -/
structure VariableModel where
  name : Name
  layout : Name
  deriving DecidableEq

/-- A variable as `Variable::New` makes it. -/
structure NamedVariable (L : Type*) where
  model : VariableModel
  layout : Managed L Name
  name : Name
  deriving DecidableEq

/-- `l` in `Variable::New`. -/
def VariableModel.findLayout (layouts : Manager L Name) (mdl : VariableModel) (name : Name) :
    Option (Managed L Name) :=
  if '/' ∈ mdl.layout then layouts.search mdl.layout
  else searchInGroups layouts.search mdl.layout (split name).reverse

/-- `Variable::New`. -/
def NamedVariable.new (layouts : Manager L Name) (mdl : VariableModel) (name : Name) :
    Option (NamedVariable L) :=
  if '/' ∈ mdl.name then none
  else (mdl.findLayout layouts name).map fun l => ⟨mdl, l, name⟩

theorem NamedVariable.new_layout (layouts : Manager L Name) (mdl : VariableModel) (name : Name) :
    (NamedVariable.new layouts mdl name).map NamedVariable.layout =
      if '/' ∈ mdl.name then none else mdl.findLayout layouts name := by
  rw [NamedVariable.new]
  split_ifs with hslash
  · rfl
  · cases mdl.findLayout layouts name <;> rfl

/-- The names of the coordinates of a mesh or a curve, and `coords_`. -/
structure Coords (V : Type*) where
  names : List Name
  coords : List (Option (Managed V Name))

/-- `GetCoord`, which fills `coords_` when it is empty; `find` looks up one name. -/
def Coords.getCoord (find : Name → Option (Managed V Name)) (c : Coords V) (n : ℕ) :
    Coords V × Option (Managed V Name) :=
  let c := if c.coords.length = 0 then { c with coords := c.names.map find } else c
  (c, c.coords[n]?.join)

namespace Mesh

/-- `Mesh::FindVarInGroup` of the mesh with this name. -/
def findVarInGroup (vars : Manager V Name) (name varName : Name) : Option (Managed V Name) :=
  searchInGroups vars.search varName (split name).reverse

/-- `Mesh::FindVar`. -/
def findVar (vars : Manager V Name) (name varName : Name) : Option (Managed V Name) :=
  if '/' ∈ varName then vars.search varName else findVarInGroup vars name varName

/-- `Mesh::GetCoord`. -/
def getCoord (vars : Manager V Name) (name : Name) : Coords V → ℕ →
    Coords V × Option (Managed V Name) := Coords.getCoord (findVar vars name)

end Mesh

namespace Curve

/-- One turn of the loop in `Curve::GetCoord`, for the curve with this name. -/
def findCoord (vars : Manager V Name) (name coordName : Name) : Option (Managed V Name) :=
  if '/' ∈ coordName then vars.search coordName
  else searchInGroups vars.search coordName (split name).reverse

/-- `Curve::GetCoord`. -/
def getCoord (vars : Manager V Name) (name : Name) : Coords V → ℕ →
    Coords V × Option (Managed V Name) := Coords.getCoord (findCoord vars name)

end Curve

/-! ## Lexical scoping -/

/-- What a relative name stands for within the groups: the object of that name in the innermost
group that has one, and none when no group has. -/
def Resolves {α : Type*} (search : Name → Option α) (groups : List Component) (n : Component) :
    Option α → Prop
  | some x => ∃ j ≤ groups.length, search (fullName (groups.take j) n) = some x ∧
      ∀ i, j < i → i ≤ groups.length → search (fullName (groups.take i) n) = none
  | none => ∀ j ≤ groups.length, search (fullName (groups.take j) n) = none

theorem split_fullName (groups : List Component) (n : Component) :
    split (fullName groups n) = groups.map Component.chars ++ [n.chars] := by
  refine List.splitOn_intercalate '/' ?_ (by simp)
  intro l hl
  obtain hl | hl := List.mem_append.mp hl
  · obtain ⟨g, -, rfl⟩ := List.mem_map.mp hl
    exact g.plain
  · rw [List.mem_singleton.mp hl]
    exact n.plain

theorem foldl_slash (name : Name) : ∀ (gs : List Name) (g : Name),
    gs.foldl (fun a g => a ++ '/' :: g) g ++ '/' :: name = qualified (g :: gs) name := by
  unfold qualified
  intro gs
  induction gs with
  | nil =>
    intro g
    simp
  | cons h gs ih =>
    intro g
    rw [List.foldl_cons, ih, List.cons_append, List.cons_append, List.cons_append,
      List.intercalate_cons_cons, List.intercalate_cons_of_ne_nil (by simp),
      List.intercalate_cons_of_ne_nil (by simp)]
    simp

theorem absoluteName_eq (groups : List Component) (n : Component) :
    absoluteName (groups.map Component.chars) n.chars = fullName groups n := by
  cases groups with
  | nil => simp [absoluteName, fullName, qualified]
  | cons g gs => exact foldl_slash n.chars (gs.map Component.chars) g.chars

/-- One more group within the others comes before them. -/
theorem Resolves.append {α : Type*} {search : Name → Option α} {groups : List Component}
    {n : Component} {r : Option α} (h : Resolves search groups n r) (g : Component) :
    Resolves search (groups ++ [g]) n ((search (fullName (groups ++ [g]) n)).or r) := by
  have htake : ∀ i, i ≤ groups.length → (groups ++ [g]).take i = groups.take i :=
    fun i hi => List.take_append_of_le_length hi
  have hall : (groups ++ [g]).take (groups.length + 1) = groups ++ [g] := by simp
  cases hsearch : search (fullName (groups ++ [g]) n) with
  | some x =>
    refine ⟨groups.length + 1, by simp, by rw [hall, hsearch], fun i hi hle => ?_⟩
    simp at hle
    omega
  | none =>
    have hlast : ∀ i, groups.length < i → i ≤ (groups ++ [g]).length →
        search (fullName ((groups ++ [g]).take i) n) = none := by
      intro i hi hle
      obtain rfl : i = groups.length + 1 := by
        simp at hle
        omega
      rw [hall, hsearch]
    rw [Option.none_or]
    cases r with
    | some x =>
      obtain ⟨j, hj, hx, hnone⟩ := h
      refine ⟨j, by simp; omega, by rw [htake j hj, hx], fun i hi hle => ?_⟩
      obtain hi' | hi' := le_or_gt i groups.length
      · rw [htake i hi']
        exact hnone i hi hi'
      · exact hlast i hi' hle
    | none =>
      intro i hle
      obtain hi' | hi' := le_or_gt i groups.length
      · rw [htake i hi']
        exact h i hi'
      · exact hlast i hi' hle

theorem searchInGroups_cons {α : Type*} (search : Name → Option α) (name last : Name)
    (groups : List Name) : searchInGroups search name (last :: groups) =
      (search (absoluteName groups.reverse name)).or (searchInGroups search name groups) := by
  rw [searchInGroups]
  cases search (absoluteName groups.reverse name) <;> rfl

/-- The loop of the source finds the object of the innermost group. -/
theorem searchInGroups_resolves {α : Type*} (search : Name → Option α) (n : Component)
    (groups : List Component) : ∀ last, Resolves search groups n
      (searchInGroups search n.chars (last :: (groups.map Component.chars).reverse)) := by
  induction groups using List.reverseRecOn with
  | nil =>
    intro last
    have habs : absoluteName [] n.chars = fullName [] n := absoluteName_eq [] n
    rw [searchInGroups_cons, List.map_nil, List.reverse_nil, List.reverse_nil, habs,
      searchInGroups, Option.or_none]
    cases hsearch : search (fullName [] n) with
    | none => exact fun j hj => by simpa [Nat.le_zero.mp hj] using hsearch
    | some x => exact ⟨0, le_rfl, hsearch, fun i hi hle => by simp at hle; omega⟩
  | append_singleton groups g ih =>
    intro last
    have hrev : ((groups ++ [g]).map Component.chars).reverse =
        g.chars :: (groups.map Component.chars).reverse := by simp
    rw [searchInGroups_cons, List.reverse_reverse, absoluteName_eq (groups ++ [g]) n, hrev]
    exact (ih g.chars).append g

/-- The loop, entered with the groups of a full name. -/
theorem searchInGroups_fullName {α : Type*} (search : Name → Option α) (groups : List Component)
    (v n : Component) : Resolves search groups n
      (searchInGroups search n.chars (split (fullName groups v)).reverse) := by
  rw [split_fullName, List.reverse_append]
  exact searchInGroups_resolves search n groups v.chars

/-- Once `coords_` is filled from a registry, every access reads the look-up of its name. -/
theorem getCoord_foldl (find : Name → Option (Managed V Name)) (names : List Name)
    (accesses : List ℕ) (n : ℕ) : (Coords.getCoord find (accesses.foldl
      (fun c k => (Coords.getCoord find c k).1) ⟨names, []⟩) n).2 = (names.map find)[n]?.join := by
  have hstep : ∀ c : Coords V, c = ⟨names, []⟩ ∨ c = ⟨names, names.map find⟩ → ∀ k,
      Coords.getCoord find c k = (⟨names, names.map find⟩, (names.map find)[k]?.join) := by
    rintro c (rfl | rfl) k
    · rfl
    · cases names <;> rfl
  suffices hrun : ∀ c : Coords V, c = ⟨names, []⟩ ∨ c = ⟨names, names.map find⟩ →
      accesses.foldl (fun c k => (Coords.getCoord find c k).1) c = ⟨names, []⟩ ∨
        accesses.foldl (fun c k => (Coords.getCoord find c k).1) c = ⟨names, names.map find⟩ by
    rw [hstep _ (hrun _ (.inl rfl))]
  induction accesses with
  | nil => exact fun c hc => hc
  | cons k accesses ih =>
    intro c hc
    rw [List.foldl_cons, hstep c hc]
    exact ih _ (.inr rfl)

theorem Resolves.unique {α : Type*} {search : Name → Option α} {groups : List Component}
    {n : Component} {r r' : Option α} (h : Resolves search groups n r)
    (h' : Resolves search groups n r') : r = r' := by
  cases r with
  | none =>
    cases r' with
    | none => rfl
    | some x =>
      obtain ⟨j, hj, hx, -⟩ := h'
      exact absurd (hx.symm.trans (h j hj)) (Option.some_ne_none x)
  | some x =>
    obtain ⟨j, hj, hx, hnone⟩ := h
    cases r' with
    | none => exact absurd (hx.symm.trans (h' j hj)) (Option.some_ne_none x)
    | some y =>
      obtain ⟨i, hi, hy, hnone'⟩ := h'
      obtain hlt | rfl | hlt := lt_trichotomy i j
      · exact absurd (hx.symm.trans (hnone' j hlt hj)) (Option.some_ne_none x)
      · exact hx.symm.trans hy
      · exact absurd (hy.symm.trans (hnone i hlt hi)) (Option.some_ne_none y)

theorem new_resolves (layouts : Manager L Name) (groups : List Component) (v n : Component) :
    Resolves layouts.search groups n ((NamedVariable.new layouts ⟨v.chars, n.chars⟩
      (fullName groups v)).map NamedVariable.layout) := by
  rw [NamedVariable.new_layout, if_neg v.plain, VariableModel.findLayout, if_neg n.plain]
  exact searchInGroups_fullName layouts.search groups v n

theorem getCoord_resolves (vars : Manager V Name) (groups : List Component) (v n : Component)
    (before after : List Name) (accesses : List ℕ) : Resolves vars.search groups n
      (Curve.getCoord vars (fullName groups v)
        (accesses.foldl (fun c k => (Curve.getCoord vars (fullName groups v) c k).1)
          ⟨before ++ n.chars :: after, []⟩) before.length).2 := by
  have hcoord := searchInGroups_fullName vars.search groups v n
  have hget := getCoord_foldl (Curve.findCoord vars (fullName groups v))
    (before ++ n.chars :: after) accesses before.length
  rw [Curve.getCoord, hget]
  simpa [Curve.findCoord, if_neg n.plain] using hcoord

/-- All three look-ups are lexical, and agree: of a variable's layout, of a mesh's variable, and of
a curve's coordinate, whichever coordinates have been asked for before. -/
theorem scoped_names (layouts : Manager L Name) (vars : Manager V Name) (groups : List Component)
    (v n : Component) :
    Resolves layouts.search groups n
      ((NamedVariable.new layouts ⟨v.chars, n.chars⟩ (fullName groups v)).map
        NamedVariable.layout) ∧
    Resolves vars.search groups n (Mesh.findVarInGroup vars (fullName groups v) n.chars) ∧
    (NamedVariable.new layouts ⟨v.chars, n.chars⟩ (fullName groups v)).map NamedVariable.layout =
      Mesh.findVarInGroup layouts (fullName groups v) n.chars ∧
    ∀ (before after : List Name) (accesses : List ℕ) (r : Option (Managed V Name)),
      (Curve.getCoord vars (fullName groups v)
        (accesses.foldl (fun c k => (Curve.getCoord vars (fullName groups v) c k).1)
          ⟨before ++ n.chars :: after, []⟩) before.length).2 = r →
      Resolves vars.search groups n r ∧
        r = Mesh.findVarInGroup vars (fullName groups v) n.chars := by
  have hmesh := searchInGroups_fullName vars.search groups v n
  refine ⟨new_resolves layouts groups v n, hmesh, ?_, ?_⟩
  · exact (new_resolves layouts groups v n).unique
      (searchInGroups_fullName layouts.search groups v n)
  · rintro before after accesses r rfl
    have hcurve := getCoord_resolves vars groups v n before after accesses
    exact ⟨hcurve, hcurve.unique hmesh⟩

end Damaris.Data
