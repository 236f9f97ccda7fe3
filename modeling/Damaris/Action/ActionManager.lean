import Damaris.Util.Manager

/-!
# `ActionManager::Init`

Every event of the configuration becomes an action under the event's name, and one action under
`#error` is to be run when a client fails. That one is made from the event that the first `error`
element names, or it is the garbage collector.
-/
namespace Damaris

namespace Model

inductive Scope
  | core
  | group
  | bcast
  deriving DecidableEq

/-- What the configuration says about an event; `library` is empty for the main program. -/
structure Event where
  name : String
  action : String
  library : String
  scope : Scope
  deriving DecidableEq

/-- The function that `DynamicAction::Load` looks up. -/
def Event.function (mdl : Event) : String × String := (mdl.library, mdl.action)

structure Exception where
  event : Option String
  script : Option String
  deriving DecidableEq

structure Actions where
  event : List Event
  error : List Exception
  deriving DecidableEq

end Model

open Model

inductive Action
  | dynamic (mdl : Event)
  | group (mdl : Event)
  | garbageCollector
  deriving DecidableEq

namespace Action

def getName : Action → String
  | dynamic mdl => mdl.name
  | group mdl => mdl.name
  | garbageCollector => "#error"

def getModel : Action → Option Event
  | dynamic mdl => some mdl
  | group mdl => some mdl
  | garbageCollector => none

/-- `GroupAction::New`. -/
def newGroup (mdl : Event) (_name : String) : Action := group mdl

/-- `DynamicAction::New`. -/
def new (mdl : Event) (name : String) : Action :=
  if mdl.scope ≠ .group then dynamic mdl else newGroup mdl name

theorem getModel_new (mdl : Event) (name : String) : (new mdl name).getModel = some mdl := by
  unfold new
  split <;> rfl

/-- The requested name is not the one that the action gets. -/
theorem getName_new (mdl : Event) (name : String) : (new mdl name).getName = mdl.name := by
  unfold new
  split <;> rfl

theorem getName_of_getModel {a : Action} {mdl : Event} (h : a.getModel = some mdl) :
    a.getName = mdl.name := by
  cases a with
  | dynamic e =>
    obtain rfl := Option.some.inj h
    rfl
  | group e =>
    obtain rfl := Option.some.inj h
    rfl
  | garbageCollector => cases h

end Action

abbrev ActionManager := Manager Action String

namespace ActionManager

/-- `Create<DynamicAction>`. -/
def create (m : ActionManager) (mdl : Event) (name : String) : ActionManager :=
  let t := Action.new mdl name
  (Manager.create m (some t) t.getName).1

def addCollector (m : ActionManager) : ActionManager :=
  (m.add (some (.garbageCollector, Action.garbageCollector.getName))).1

/-- The handler's name, and whether it is an event. -/
def handler : List Exception → String × Bool
  | [] => ("", true)
  | r :: _ =>
    match r.script with
    | some script => (script, false)
    | none => (r.event.getD "", true)

/-- One event. -/
def build (h : String × Bool) (m : ActionManager) (e : Event) : ActionManager :=
  let m := create m e e.name
  if h.2 && decide (e.name = h.1) then create m e "#error" else m

/-- `Init` before the loop. -/
def start (mdl : Actions) (m : ActionManager) : ActionManager :=
  if mdl.error.isEmpty then addCollector m else m

/-- `Init`. -/
def init (mdl : Actions) (m : ActionManager) : ActionManager :=
  let m := mdl.event.foldl (build (handler mdl.error)) (start mdl m)
  if (m.search "#error").isSome then m else addCollector m

/-- The first `error` element names the event. -/
def Handles (mdl : Actions) (e : Event) : Prop :=
  ∃ r rs, mdl.error = r :: rs ∧ r.event = some e.name

/-- What the initialisation is for: all events can be found, and there is a handler for errors. -/
structure Registers (mdl : Actions) (m : ActionManager) : Prop where
  events : ∀ e ∈ mdl.event, ∃ t, m.search e.name = some t ∧ t.pointer.getModel = some e
  handler : ∀ e ∈ mdl.event, Handles mdl e →
    ∃ t, m.search "#error" = some t ∧ ∃ f, t.pointer.getModel = some f ∧ f.function = e.function
  default : (∀ e ∈ mdl.event, ¬ Handles mdl e) →
    ∃ t, m.search "#error" = some t ∧ t.pointer = .garbageCollector

def names (mdl : Actions) : Finset String := insert "#error" (mdl.event.map Event.name).toFinset

/-- Only an event that is itself named `#error` becomes the handler, and an `int` numbers the
actions. -/
structure Registrable (mdl : Actions) : Prop where
  distinct : ∀ e ∈ mdl.event, ∀ f ∈ mdl.event, e.name = f.name → e = f
  fits : (names mdl).card ≤ 2 ^ 32
  handler : ∀ e ∈ mdl.event, Handles mdl e →
    ∃ f ∈ mdl.event, f.name = "#error" ∧ f.function = e.function
  default : (∀ e ∈ mdl.event, ¬ Handles mdl e) → ∀ f ∈ mdl.event, f.name ≠ "#error"

/-! ## What the manager holds on the way -/

/-- The objects are actions of the model's events or garbage collectors, under their own names. -/
structure Built (mdl : Actions) (m : ActionManager) : Prop where
  numbered : m.Numbered
  made : ∀ x ∈ m.objects, x.name = x.pointer.getName ∧
    (x.pointer = .garbageCollector ∨ ∃ f ∈ mdl.event, x.pointer.getModel = some f)

variable {mdl : Actions} {m : ActionManager}

theorem built_empty (mdl : Actions) : Built mdl Manager.empty :=
  ⟨Manager.numbered_empty, fun x hx => absurd hx (KeyedStore.notMem_empty x)⟩

theorem getName_mem_names {a : Action}
    (ha : a = .garbageCollector ∨ ∃ f ∈ mdl.event, a.getModel = some f) :
    a.getName ∈ names mdl := by
  rcases ha with rfl | ⟨f, hf, hmodel⟩
  · exact Finset.mem_insert_self _ _
  · rw [Action.getName_of_getModel hmodel]
    exact Finset.mem_insert_of_mem (List.mem_toFinset.mpr (List.mem_map_of_mem hf))

theorem Built.put (h : Built mdl m) {a : Action}
    (ha : a = .garbageCollector ∨ ∃ f ∈ mdl.event, a.getModel = some f) :
    Built mdl (m.put a a.getName) := by
  refine ⟨h.numbered.put a _, fun x hx => ?_⟩
  obtain ⟨-, -, helems⟩ | hsame := m.put_cases a a.getName
  · rw [KeyedStore.mem_def, helems, List.mem_append, List.mem_singleton] at hx
    rcases hx with hx | rfl
    · exact h.made x hx
    · exact ⟨rfl, ha⟩
  · rw [hsame] at hx
    exact h.made x hx

theorem Built.found_put (h : Built mdl m) (hfits : (names mdl).card ≤ 2 ^ 32) {a : Action}
    (ha : a = .garbageCollector ∨ ∃ f ∈ mdl.event, a.getModel = some f) (n : String) :
    (m.put a a.getName).found n = (m.found n).or (if n = a.getName then some a else none) := by
  refine h.numbered.found_put (fun x hx => ?_) hfits a (getName_mem_names ha) n
  rw [(h.made x hx).1]
  exact getName_mem_names (h.made x hx).2

theorem create_eq (m : ActionManager) (mdl : Event) (name : String) :
    create m mdl name = m.put (.new mdl name) (Action.new mdl name).getName :=
  m.create_fst _ _

theorem new_made {e : Event} (he : e ∈ mdl.event) (name : String) :
    Action.new e name = .garbageCollector ∨
      ∃ f ∈ mdl.event, (Action.new e name).getModel = some f :=
  .inr ⟨e, he, Action.getModel_new e name⟩

theorem Built.create (h : Built mdl m) {e : Event} (he : e ∈ mdl.event) (name : String) :
    Built mdl (create m e name) := by
  rw [create_eq]
  exact h.put (new_made he name)

theorem Built.build (h : Built mdl m) (hd : String × Bool) {e : Event} (he : e ∈ mdl.event) :
    Built mdl (build hd m e) := by
  unfold ActionManager.build
  dsimp only
  split
  · exact (h.create he e.name).create he "#error"
  · exact h.create he e.name

/-- An event is found under its name if no action was before; the attempt to make it the handler
too finds this name taken. -/
theorem Built.found_build (h : Built mdl m) (hfits : (names mdl).card ≤ 2 ^ 32)
    (hd : String × Bool) {e : Event} (he : e ∈ mdl.event) (n : String) :
    (ActionManager.build hd m e).found n =
      (m.found n).or (if n = e.name then some (.new e e.name) else none) := by
  have hfirst : (ActionManager.create m e e.name).found n =
      (m.found n).or (if n = e.name then some (.new e e.name) else none) := by
    rw [create_eq, h.found_put hfits (new_made he _), Action.getName_new]
  unfold ActionManager.build
  dsimp only
  split
  · rw [create_eq, (h.create he e.name).found_put hfits (new_made he _), hfirst, Action.getName_new]
    by_cases hn : n = e.name
    · rw [if_pos hn, if_pos hn, Option.or_assoc, Option.some_or]
    · rw [if_neg hn, if_neg hn, Option.or_none]
  · exact hfirst

theorem Built.foldl (h : Built mdl m) (hd : String × Bool) {es : List Event}
    (hes : ∀ e ∈ es, e ∈ mdl.event) : Built mdl (es.foldl (ActionManager.build hd) m) := by
  induction es generalizing m with
  | nil => exact h
  | cons e es ih =>
    obtain ⟨he, hes⟩ := List.forall_mem_cons.mp hes
    exact ih (h.build hd he) hes

/-- Under a name is the first event that has it. -/
theorem Built.found_foldl (h : Built mdl m) (hfits : (names mdl).card ≤ 2 ^ 32)
    (hd : String × Bool) {es : List Event} (hes : ∀ e ∈ es, e ∈ mdl.event) (n : String) :
    (es.foldl (ActionManager.build hd) m).found n =
      (m.found n).or ((es.find? fun e => decide (n = e.name)).map fun e => .new e e.name) := by
  induction es generalizing m with
  | nil => rw [List.foldl_nil, List.find?_nil, Option.map_none, Option.or_none]
  | cons e es ih =>
    obtain ⟨he, hes⟩ := List.forall_mem_cons.mp hes
    rw [List.foldl_cons, ih (h.build hd he) hes, h.found_build hfits hd he, Option.or_assoc,
      List.find?_cons]
    by_cases hn : n = e.name
    · simp [hn]
    · simp [hn]

theorem Built.addCollector (h : Built mdl m) : Built mdl (addCollector m) := h.put (.inl rfl)

theorem Built.found_addCollector (h : Built mdl m) (hfits : (names mdl).card ≤ 2 ^ 32) (n : String) :
    (ActionManager.addCollector m).found n =
      (m.found n).or (if n = "#error" then some .garbageCollector else none) :=
  h.found_put hfits (.inl rfl) n

theorem built_start (mdl : Actions) : Built mdl (start mdl Manager.empty) := by
  unfold start
  split
  · exact (built_empty mdl).addCollector
  · exact built_empty mdl

theorem found_start (hfits : (names mdl).card ≤ 2 ^ 32) (n : String) :
    (start mdl Manager.empty).found n =
      if mdl.error = [] ∧ n = "#error" then some .garbageCollector else none := by
  unfold start
  cases herror : mdl.error with
  | nil =>
    rw [List.isEmpty_nil, if_pos rfl, (built_empty mdl).found_addCollector hfits]
    simp [Manager.found, Manager.search, Manager.empty, KeyedStore.find, KeyedStore.empty]
  | cons r rs =>
    simp [Manager.found, Manager.search, Manager.empty, KeyedStore.find, KeyedStore.empty]

theorem built_events (mdl : Actions) :
    Built mdl (mdl.event.foldl (build (handler mdl.error)) (start mdl Manager.empty)) :=
  (built_start mdl).foldl (handler mdl.error) fun _ he => he

theorem built_init (mdl : Actions) : Built mdl (init mdl Manager.empty) := by
  unfold init
  dsimp only
  split
  · exact built_events mdl
  · exact (built_events mdl).addCollector

/-- All that `Search` finds after the initialisation. -/
theorem found_init (hfits : (names mdl).card ≤ 2 ^ 32) (n : String) :
    (init mdl Manager.empty).found n =
      ((if mdl.error = [] ∧ n = "#error" then some .garbageCollector else none).or
        ((mdl.event.find? fun e => decide (n = e.name)).map fun e => .new e e.name)).or
        (if n = "#error" then some .garbageCollector else none) := by
  have hevents := (built_start mdl).found_foldl hfits (handler mdl.error) (fun e he => he) n
  rw [found_start hfits] at hevents
  rw [← hevents]
  unfold init
  dsimp only
  split
  · next hfound =>
    by_cases hn : n = "#error"
    · obtain ⟨t, ht⟩ := Option.isSome_iff_exists.mp hfound
      rw [hn, Manager.found, ht, Option.map_some, Option.some_or]
    · rw [if_neg hn, Option.or_none]
  · exact (built_events mdl).found_addCollector hfits n

/-! ## The exact condition -/

theorem search_of_found {n : String} {a : Action} (h : m.found n = some a) :
    ∃ t, m.search n = some t ∧ t.pointer = a :=
  Option.map_eq_some_iff.mp h

/-- Without two events of one name, the first of its name is the event itself. -/
theorem find?_name {es : List Event} (hdistinct : ∀ e ∈ es, ∀ f ∈ es, e.name = f.name → e = f)
    {e : Event} (he : e ∈ es) : es.find? (fun f => decide (e.name = f.name)) = some e := by
  cases hfind : es.find? fun f => decide (e.name = f.name) with
  | none => exact absurd (decide_eq_true rfl) (List.find?_eq_none.mp hfind e he)
  | some f =>
    have hname : e.name = f.name := of_decide_eq_true (List.find?_some hfind :)
    rw [hdistinct e he f (List.mem_of_find?_eq_some hfind) hname]

theorem registers_of_registrable (h : Registrable mdl) : Registers mdl (init mdl Manager.empty) := by
  refine ⟨fun e he => ?_, fun e he hhandles => ?_, fun hnone => ?_⟩
  · have hstart : ¬ (mdl.error = [] ∧ e.name = "#error") := by
      rintro ⟨herror, hname⟩
      refine h.default ?_ e he hname
      rintro f hf ⟨r, rs, hcons, -⟩
      rw [herror] at hcons
      cases hcons
    have hfound := found_init h.fits e.name
    rw [if_neg hstart, find?_name h.distinct he, Option.map_some, Option.none_or,
      Option.some_or] at hfound
    obtain ⟨t, ht, hpointer⟩ := search_of_found hfound
    exact ⟨t, ht, hpointer ▸ Action.getModel_new e e.name⟩
  · obtain ⟨f, hf, hname, hfunction⟩ := h.handler e he hhandles
    obtain ⟨r, rs, hcons, -⟩ := hhandles
    have hstart : ¬ (mdl.error = [] ∧ f.name = "#error") := by simp [hcons]
    have hfound := found_init h.fits f.name
    rw [if_neg hstart, find?_name h.distinct hf, Option.map_some, Option.none_or,
      Option.some_or] at hfound
    obtain ⟨t, ht, hpointer⟩ := search_of_found hfound
    rw [hname] at ht
    exact ⟨t, ht, f, hpointer ▸ Action.getModel_new f f.name, hfunction⟩
  · have hfind : mdl.event.find? (fun f => decide ("#error" = f.name)) = none :=
      List.find?_eq_none.mpr fun f hf hname => h.default hnone f hf (of_decide_eq_true hname).symm
    have hfound := found_init h.fits "#error"
    rw [hfind, Option.map_none, Option.or_none, if_pos rfl] at hfound
    refine search_of_found (hfound.trans ?_)
    split <;> rfl

/-- A registered name is that of a stored action, and an `int` numbers these. -/
theorem card_names_le (hm : Built mdl m) (h : Registers mdl m) : (names mdl).card ≤ 2 ^ 32 := by
  have herror : ∃ t, m.search "#error" = some t := by
    by_cases hhandles : ∃ e ∈ mdl.event, Handles mdl e
    · obtain ⟨e, he, hhandles⟩ := hhandles
      obtain ⟨t, ht, -⟩ := h.handler e he hhandles
      exact ⟨t, ht⟩
    · obtain ⟨t, ht, -⟩ := h.default fun e he hhas => hhandles ⟨e, he, hhas⟩
      exact ⟨t, ht⟩
  have hfound : ∀ n ∈ names mdl, ∃ t, m.search n = some t := by
    intro n hn
    rcases Finset.mem_insert.mp hn with rfl | hn
    · exact herror
    · obtain ⟨e, he, rfl⟩ := List.mem_map.mp (List.mem_toFinset.mp hn)
      obtain ⟨t, ht, -⟩ := h.events e he
      exact ⟨t, ht⟩
  have hsub : names mdl ⊆ (m.objects.elems.map Managed.name).toFinset := by
    intro n hn
    obtain ⟨t, ht⟩ := hfound n hn
    obtain ⟨hmem, hname⟩ := KeyedStore.find_eq_some.mp ht
    exact List.mem_toFinset.mpr (List.mem_map.mpr ⟨t, hmem, hname⟩)
  have hle := Finset.card_le_card hsub
  rw [List.toFinset_card_of_nodup m.objects.nodup, List.length_map] at hle
  exact hle.trans hm.numbered.length_le

theorem registrable_of_registers (h : Registers mdl (init mdl Manager.empty)) : Registrable mdl := by
  have hm := built_init mdl
  refine ⟨fun e he f hf hname => ?_, card_names_le hm h, fun e he hhandles => ?_,
    fun hnone f hf hname => ?_⟩
  · obtain ⟨t, ht, hmodel⟩ := h.events e he
    obtain ⟨u, hu, hmodel'⟩ := h.events f hf
    rw [hname] at ht
    obtain rfl := Option.some.inj (ht.symm.trans hu)
    exact Option.some.inj (hmodel.symm.trans hmodel')
  · obtain ⟨t, ht, f, hmodel, hfunction⟩ := h.handler e he hhandles
    obtain ⟨hmem, hname⟩ := KeyedStore.find_eq_some.mp ht
    obtain ⟨hget, hmade⟩ := hm.made t hmem
    rw [hname, Action.getName_of_getModel hmodel] at hget
    rcases hmade with hgc | ⟨f', hf', hmodel'⟩
    · rw [hgc] at hmodel
      cases hmodel
    · obtain rfl := Option.some.inj (hmodel.symm.trans hmodel')
      exact ⟨f, hf', hget.symm, hfunction⟩
  · obtain ⟨t, ht, hmodel⟩ := h.events f hf
    obtain ⟨u, hu, hgc⟩ := h.default hnone
    rw [hname] at ht
    obtain rfl := Option.some.inj (ht.symm.trans hu)
    rw [hgc] at hmodel
    cases hmodel

/-- The initialisation registers every event and the right handler if and only if there is room for
the actions, no two events share a name, and what is to handle errors is already called `#error`. -/
theorem init_registers_iff (mdl : Actions) :
    Registers mdl (init mdl Manager.empty) ↔ Registrable mdl :=
  ⟨registrable_of_registers, registers_of_registrable⟩

/-- One event, named as the handler: the garbage collector is registered in its place. -/
theorem handler_not_registered :
    ¬ ∀ mdl : Actions, Registers mdl (init mdl Manager.empty) := by
  intro hall
  obtain ⟨t, ht, f, hmodel, -⟩ := (hall ⟨[⟨"on_error", "recover", "", .core⟩],
    [⟨some "on_error", none⟩]⟩).handler _ List.mem_cons_self ⟨_, _, rfl, rfl⟩
  obtain rfl := Option.some.inj ((rfl : _ = some _).symm.trans ht)
  cases hmodel

end ActionManager
end Damaris
