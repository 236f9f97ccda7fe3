import Damaris.Action.ActionManager
import Damaris.Action.GroupAction

/-!
# Commands from VisIt

`ControlCommandCallback` finds the action of a command and calls it at once. An action is called
with the source first and the iteration second, and a call from outside the simulation is known by
the source -1: a group action then does not wait for the clients.
-/
namespace Damaris.Visit
open Model

/-- `model::Exec` -/
inductive Exec
  | onClient
  | coupled
  | remote
  deriving DecidableEq

/-- A `DynamicAction` with the function that it has loaded. -/
structure DynamicAction (F : Type) where
  mdl : Event
  external : Bool
  execution : Exec
  function : Option F

/-- A call of a loaded function. -/
structure Run (F : Type) where
  function : F
  name : String
  source : ℤ
  iteration : ℤ
  args : Option String
  deriving DecidableEq

/-- An action of the `ActionManager` that a command can mean. A group action has its `locks_`. -/
inductive Command (F : Type)
  | plain (base : DynamicAction F)
  | group (base : DynamicAction F) (locks : ℤ → ℕ)

/-- What an action sees of its surroundings: `HasServer`, the clients that are known, and the
functions of the libraries. -/
structure Surroundings (F : Type) where
  hasServer : Bool
  known : List ℕ
  library : String × String → Option F

namespace DynamicAction

variable {F : Type} (e : Surroundings F) (a : DynamicAction F)

/-- `DynamicAction::Load`; a function that is not found is looked for again. -/
def load : DynamicAction F :=
  match a.function with
  | some _ => a
  | none => { a with function := e.library a.mdl.function }

/-- `DynamicAction::Call`. -/
def call (source iteration : ℤ) (args : Option String) : DynamicAction F × List (Run F) :=
  let a := a.load e
  (a, a.function.toList.map fun f => ⟨f, a.mdl.name, source, iteration, args⟩)

end DynamicAction

namespace Command

variable {F : Type}

def base : Command F → DynamicAction F
  | plain base => base
  | group base _ => base

/-- The lock table, where there is one. -/
def locks : Command F → Option (ℤ → ℕ)
  | plain _ => none
  | group _ locks => some locks

/-- `DynamicAction::Call`, or `GroupAction::Call`. -/
def call (e : Surroundings F) (source iteration : ℤ) (args : Option String) :
    Command F → Command F × List (Run F)
  | plain base =>
    let x := base.call e source iteration args
    (plain x.1, x.2)
  | group base locks =>
    let x := Group.call e.hasServer (base.execution = .onClient) e.known locks source iteration
    if x.2 then
      let y := base.call e source iteration args
      (group y.1 x.1, y.2)
    else (group base x.1, [])

end Command

/-- `VisItListener::ControlCommandCallback`; `iteration` is that of the simulation data. -/
def controlCommandCallback {F : Type} (e : Surroundings F) (iteration : ℤ) (cmd : String)
    (args : Option String) (actions : String → Option (Command F)) :
    (String → Option (Command F)) × List (Run F) :=
  match actions cmd with
  | none => (actions, [])
  | some a =>
    if a.base.external then
      let x := a.call e iteration (-1) args
      (Function.update actions cmd (some x.1), x.2)
    else (actions, [])

section Theorems

variable {F : Type} {e : Surroundings F}

/-- The command runs the function of the action once, as an external call for the iteration of the
simulation, and the lock table stays as it is. -/
def Reaches (e : Surroundings F) (iteration : ℤ) (cmd : String) (args : Option String)
    (actions : String → Option (Command F)) (a : Command F) : Prop :=
  ∃ f, (controlCommandCallback e iteration cmd args actions).2 =
      [⟨f, a.base.mdl.name, -1, iteration, args⟩] ∧
    ((controlCommandCallback e iteration cmd args actions).1 cmd).map Command.locks = some a.locks

theorem DynamicAction.load_mdl (a : DynamicAction F) : (a.load e).mdl = a.mdl := by
  unfold load
  split <;> rfl

/-- The source of a run is the iteration of the simulation, and its iteration is -1. -/
theorem source_of_run {a : Command F} {i : ℤ} {args : Option String} {r : Run F}
    (hr : r ∈ (a.call e i (-1) args).2) : r.source = i ∧ r.iteration = -1 := by
  have hbase : ∀ {base : DynamicAction F}, r ∈ (base.call e i (-1) args).2 →
      r.source = i ∧ r.iteration = -1 := by
    intro base hmem
    obtain ⟨f, -, rfl⟩ := List.mem_map.mp hmem
    exact ⟨rfl, rfl⟩
  cases a with
  | plain base => exact hbase hr
  | group base locks =>
    simp only [Command.call] at hr
    split_ifs at hr
    · exact hbase hr
    · cases hr

/-- Called for iteration -1, an action takes the command for an external call. -/
theorem call_external (a : Command F) (args : Option String) :
    (a.call e (-1) (-1) args).2 = (a.base.load e).function.toList.map
        (fun f => ⟨f, a.base.mdl.name, -1, -1, args⟩) ∧
      (a.call e (-1) (-1) args).1.locks = a.locks := by
  cases a with
  | plain base =>
    refine ⟨?_, rfl⟩
    simp only [Command.call, DynamicAction.call, Command.base, DynamicAction.load_mdl]
  | group base locks =>
    have hgroup : ∀ b, Group.call e.hasServer b e.known locks (-1) (-1) = (locks, true) :=
      fun _ => if_pos rfl
    simp only [Command.call, hgroup, if_true, DynamicAction.call, Command.base,
      DynamicAction.load_mdl, Command.locks, and_self]

/-- A command reaches the action exactly before the end of the first iteration, if the function
can be loaded. -/
theorem command_reaches_iff {actions : String → Option (Command F)} {cmd : String} {a : Command F}
    (ha : actions cmd = some a) (hexternal : a.base.external) (i : ℤ) (args : Option String) :
    Reaches e i cmd args actions a ↔ i = -1 ∧ ((a.base.load e).function).isSome := by
  have hcallback : controlCommandCallback e i cmd args actions =
      (Function.update actions cmd (some (a.call e i (-1) args).1), (a.call e i (-1) args).2) := by
    simp only [controlCommandCallback, ha, if_pos hexternal]
  rw [Reaches, hcallback]
  constructor
  · rintro ⟨f, hruns, -⟩
    have hrun := List.mem_singleton_self (⟨f, a.base.mdl.name, -1, i, args⟩ : Run F)
    rw [← hruns] at hrun
    obtain ⟨hsource, -⟩ := source_of_run hrun
    obtain rfl : i = -1 := hsource.symm
    refine ⟨rfl, ?_⟩
    dsimp only at hruns
    rw [(call_external a args).1] at hruns
    cases hf : (a.base.load e).function with
    | none =>
      rw [hf] at hruns
      cases hruns
    | some g => rfl
  · rintro ⟨rfl, hsome⟩
    obtain ⟨f, hf⟩ := Option.isSome_iff_exists.mp hsome
    obtain ⟨hruns, hlocks⟩ := call_external (e := e) a args
    refine ⟨f, ?_, ?_⟩
    · rw [hruns, hf]
      rfl
    · dsimp only
      rw [Function.update_self, Option.map_some, hlocks]

end Theorems

/-- A group action on a server that knows two clients. -/
def twoClients : Surroundings Unit := ⟨true, [0, 1], fun _ => some ()⟩

def groupEvent : Command Unit :=
  .group ⟨⟨"draw", "draw", "", .group⟩, true, .coupled, none⟩ fun _ => 0

def onlyDraw (cmd : String) : Option (Command Unit) := if cmd = "draw" then some groupEvent else none

theorem command_reaches_first : Reaches twoClients (-1) "draw" none onlyDraw groupEvent :=
  (command_reaches_iff (a := groupEvent) rfl rfl (-1) none).mpr ⟨rfl, rfl⟩

/-- After four iterations the command is counted as the call of a client. -/
theorem command_counted : ¬ ∀ (e : Surroundings Unit) (actions : String → Option (Command Unit))
    (cmd : String) (a : Command Unit), actions cmd = some a → a.base.external →
    ((a.base.load e).function).isSome → ∀ (i : ℤ) (args : Option String),
    Reaches e i cmd args actions a := by
  intro h
  obtain ⟨f, hruns, -⟩ := h twoClients onlyDraw "draw" groupEvent rfl rfl rfl 3 none
  have hnone : (controlCommandCallback twoClients 3 "draw" none onlyDraw).2 = [] := by decide
  rw [hnone] at hruns
  cases hruns

end Damaris.Visit
