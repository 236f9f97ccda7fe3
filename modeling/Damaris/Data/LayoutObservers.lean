import Mathlib.Tactic
import Damaris.Data.BoxLayout
import Damaris.Lib.StepSystem

/-!
# Layouts observe their parameters

A parameter notifies the layouts that observe it whenever its bytes are written,
and a notified layout interprets its descriptors again. Parameters and layouts
hold plain pointers to each other, which a layout's destructor takes back. The
parameters here are those of type `int`.
-/
namespace Damaris

open BoxLayout Calc

/-- A parameter of type `int` with the pointers in its `observers_`. -/
structure Parameter where
  value : List UInt8
  observers : List ℕ
  sized : value.length = 4

namespace Parameter

/-- The bytes of an `int`, lowest first. -/
def bytes (v : ℤ) : List UInt8 :=
  (List.range 4).map fun i => UInt8.ofNat ((v % 2 ^ 32).toNat / 256 ^ i)

def new (v : ℤ) : Parameter := ⟨bytes v, [], by simp [bytes]⟩

/-- `GetValue<int>`. -/
def getValue (p : Parameter) : ℤ :=
  Data.toInt (p.value.foldr (fun b n => b.toNat + 256 * n) 0 : ℕ)

/-- What `FromBuffer` copies; a short buffer leaves the last bytes as they were. -/
def fromBuffer (buffer : List UInt8) (p : Parameter) : Parameter where
  value := buffer.take 4 ++ p.value.drop (min 4 buffer.length)
  observers := p.observers
  sized := by
    have := p.sized
    simp only [List.length_append, List.length_take, List.length_drop]
    omega

def addObserver (ptr : ℕ) (p : Parameter) : Parameter :=
  { p with observers := if ptr ∈ p.observers then p.observers else p.observers ++ [ptr] }

def removeObserver (ptr : ℕ) (p : Parameter) : Parameter :=
  { p with observers := p.observers.filter fun q => decide (q ≠ ptr) }

@[simp] theorem observers_fromBuffer (buffer : List UInt8) (p : Parameter) :
    (p.fromBuffer buffer).observers = p.observers := rfl

@[simp] theorem getValue_addObserver (ptr : ℕ) (p : Parameter) :
    (p.addObserver ptr).getValue = p.getValue := rfl

@[simp] theorem getValue_removeObserver (ptr : ℕ) (p : Parameter) :
    (p.removeObserver ptr).getValue = p.getValue := rfl

@[simp] theorem mem_addObserver {ptr q : ℕ} {p : Parameter} :
    q ∈ (p.addObserver ptr).observers ↔ q ∈ p.observers ∨ q = ptr := by
  simp only [addObserver]
  split_ifs with h
  · exact ⟨.inl, fun hq => hq.elim id fun he => he ▸ h⟩
  · simp

@[simp] theorem mem_removeObserver {ptr q : ℕ} {p : Parameter} :
    q ∈ (p.removeObserver ptr).observers ↔ q ∈ p.observers ∧ q ≠ ptr := by
  simp [removeObserver]

/-- The bytes of an `int` stand for it. -/
theorem getValue_of_bytes {p : Parameter} {v : ℤ} (h : p.value = bytes v) :
    p.getValue = Data.toInt v := by
  have hlt : (v % 2 ^ 32).toNat < 2 ^ 32 := by omega
  have hcast : (((v % 2 ^ 32).toNat : ℕ) : ℤ) = v % 2 ^ 32 := by omega
  have hsum : (bytes v).foldr (fun b n => b.toNat + 256 * n) 0 = (v % 2 ^ 32).toNat := by
    simp only [bytes, List.range_succ, List.range_zero, List.nil_append, List.cons_append,
      List.map_cons, List.map_nil, List.foldr_cons, List.foldr_nil, UInt8.toNat_ofNat']
    omega
  rw [getValue, h, hsum, hcast]
  exact Int.emod_bmod v (2 ^ 32)

/-- `SetValue` of an `int` is a `FromBuffer` of all its bytes. -/
theorem getValue_setValue (p : Parameter) (v : ℤ) :
    (p.fromBuffer (bytes v)).getValue = Data.toInt v := by
  have hlen : (bytes v).length = 4 := by simp [bytes]
  refine getValue_of_bytes ?_
  have hdrop : p.value.drop 4 = [] := List.drop_eq_nil_of_le p.sized.le
  simp only [fromBuffer, hlen, min_self, hdrop, List.append_nil]
  exact List.take_of_length_le hlen.le

@[simp] theorem getValue_new (v : ℤ) : (new v).getValue = Data.toInt v := getValue_of_bytes rfl

end Parameter

/-- A `BoxLayout` with the parameters in its `observed_`. -/
structure BoxLayout where
  model : LayoutModel
  name : Str
  vectors : Vectors
  observed : List Str

/-- The parameters by their names, and the layouts by their addresses. -/
structure Registry where
  params : Str → Option Parameter
  layouts : ℕ → Option BoxLayout

namespace Registry

-- what `Environment::GetDefaultLanguage` answers
variable (default : Language)

def initial (values : Str → Option ℤ) : Registry :=
  ⟨fun n => (values n).map Parameter.new, fun _ => none⟩

/-- `ParameterMap<int>`. -/
def sym (w : Registry) : Str → Option ℤ := fun n => (w.params n).map Parameter.getValue

def setParam (n : Str) (p : Parameter) (w : Registry) : Registry :=
  { w with params := Function.update w.params n (some p) }

def setLayout (ptr : ℕ) (l : Option BoxLayout) (w : Registry) : Registry :=
  { w with layouts := Function.update w.layouts ptr l }

/-- `BoxLayout::Notify`, through a pointer that has to point to a layout. -/
def notify (ptr : ℕ) (w : Registry) : Except Fault Registry :=
  match w.layouts ptr with
  | none => .error .dangling
  | some l =>
    match (interpretDimensions default w.sym l.model).outcome with
    | .error e => .error e
    | .ok (vectors, _) => .ok (w.setLayout ptr (some { l with vectors := vectors }))

/-- `Observable::Changed`. -/
def changed : List ℕ → Registry → Except Fault Registry
  | [], w => .ok w
  | ptr :: rest, w =>
    match w.notify default ptr with
    | .error e => .error e
    | .ok w' => changed rest w'

/-- `damaris_parameter_set`: nothing happens under an unknown name. -/
def fromBuffer (n : Str) (buffer : List UInt8) (w : Registry) : Except Fault Registry :=
  match w.params n with
  | none => .ok w
  | some p => changed default p.observers (w.setParam n (p.fromBuffer buffer))

def setValue (n : Str) (v : ℤ) (w : Registry) : Except Fault Registry :=
  w.fromBuffer default n (Parameter.bytes v)

/-- `ObserveDependentParameters`, once the names are read: up to the first one
that is unknown. Returns also what the layout observes then. -/
def observe (ptr : ℕ) : List Str → List Str → Registry → Registry × List Str × Bool
  | [], observed, w => (w, observed, true)
  | n :: names, observed, w =>
    match w.params n with
    | none => (w, observed, false)
    | some p => observe ptr names (n :: observed) (w.setParam n (p.addObserver ptr))

/-- The destructor `~Observer`. -/
def forget (ptr : ℕ) (observed : List Str) (w : Registry) : Registry :=
  { w with
    params := fun n =>
      if n ∈ observed then (w.params n).map (Parameter.removeObserver ptr) else w.params n }

/-- `BoxLayout::New` at a free address; the flag says that it is not null. -/
def new (ptr : ℕ) (mdl : LayoutModel) (name : Str) (w : Registry) : Except Fault (Registry × Bool) :=
  if '/' ∈ mdl.name then .ok (w, false)
  else
    match w.observe ptr (dependentParameters mdl) [] with
    | (w', observed, false) => .ok (w'.forget ptr observed, false)
    | (w', observed, true) =>
      match (interpretDimensions default w'.sym mdl).outcome with
      | .error e => .error e
      | .ok (vectors, _) => .ok (w'.setLayout ptr (some ⟨mdl, name, vectors, observed⟩), true)

def destroy (ptr : ℕ) (l : BoxLayout) (w : Registry) : Registry :=
  (w.forget ptr l.observed).setLayout ptr none

inductive Act
  | new (ptr : ℕ) (mdl : LayoutModel) (name : Str)
  | destroy (ptr : ℕ)
  | fromBuffer (n : Str) (buffer : List UInt8)
  | setValue (n : Str) (v : ℤ)

/-- `none` where the run does not go on, or the address is not free to be used so. -/
def step (w : Registry) : Act → Option Registry
  | .new ptr mdl name =>
    if (w.layouts ptr).isNone then ((w.new default ptr mdl name).toOption).map Prod.fst else none
  | .destroy ptr => (w.layouts ptr).map fun l => w.destroy ptr l
  | .fromBuffer n buffer => (w.fromBuffer default n buffer).toOption
  | .setValue n v => (w.setValue default n v).toOption

/-! ### What the operations change -/

section Operations

variable {default} {w w' : Registry} {n m : Str} {p : Parameter} {ptr q : ℕ}

@[simp] theorem layouts_setParam : (w.setParam n p).layouts = w.layouts := rfl

@[simp] theorem params_setLayout (l : Option BoxLayout) :
    (w.setLayout ptr l).params = w.params := rfl

@[simp] theorem sym_setLayout (l : Option BoxLayout) : (w.setLayout ptr l).sym = w.sym := rfl

@[simp] theorem layouts_setLayout_self (l : Option BoxLayout) :
    (w.setLayout ptr l).layouts ptr = l := Function.update_self ..

theorem layouts_setLayout_of_ne (h : q ≠ ptr) (l : Option BoxLayout) :
    (w.setLayout ptr l).layouts q = w.layouts q := Function.update_of_ne h ..

@[simp] theorem params_setParam_self : (w.setParam n p).params n = some p := Function.update_self ..

theorem params_setParam_of_ne (h : m ≠ n) : (w.setParam n p).params m = w.params m :=
  Function.update_of_ne h ..

theorem sym_setParam_of_ne (h : m ≠ n) : (w.setParam n p).sym m = w.sym m := by
  rw [sym, params_setParam_of_ne h, sym]

theorem sym_setParam (hp : w.params n = some p) {p' : Parameter} (hv : p'.getValue = p.getValue) :
    (w.setParam n p').sym = w.sym := by
  funext m
  by_cases hm : m = n
  · subst hm
    simp [sym, hp, hv]
  · exact sym_setParam_of_ne hm

/-- The parameter's observers contain the address. -/
def Observes (w : Registry) (ptr : ℕ) (n : Str) : Prop :=
  ∃ p, w.params n = some p ∧ ptr ∈ p.observers

theorem observes_setParam (hp : w.params n = some p) {p' : Parameter} :
    (w.setParam n p').Observes q m ↔ if m = n then q ∈ p'.observers else w.Observes q m := by
  by_cases hm : m = n
  · subst hm
    simp [Observes]
  · simp [Observes, params_setParam_of_ne hm, hm]

/-- Writing its value leaves a parameter's observers alone. -/
theorem observes_setParam_fromBuffer (hp : w.params n = some p) (buffer : List UInt8) :
    (w.setParam n (p.fromBuffer buffer)).Observes q m ↔ w.Observes q m := by
  rw [observes_setParam hp]
  split_ifs with hm
  · subst hm
    simp [Observes, hp]
  · exact Iff.rfl

/-- Registering leaves the values and the layouts alone, and adds what is
returned as observed. -/
structure Observed (ptr : ℕ) (names observed : List Str) (w : Registry)
    (r : Registry × List Str × Bool) : Prop where
  layouts : r.1.layouts = w.layouts
  sym : r.1.sym = w.sym
  others : ∀ q m, q ≠ ptr → (r.1.Observes q m ↔ w.Observes q m)
  same : (∀ m, w.Observes ptr m ↔ m ∈ observed) → ∀ m, r.1.Observes ptr m ↔ m ∈ r.2.1
  mono : ∀ m ∈ observed, m ∈ r.2.1
  all : r.2.2 = true → ∀ m ∈ names, m ∈ r.2.1

theorem observe_spec (ptr : ℕ) (names observed : List Str) (w : Registry) :
    Observed ptr names observed w (w.observe ptr names observed) := by
  induction names generalizing observed w with
  | nil =>
    exact ⟨rfl, rfl, fun _ _ _ => Iff.rfl, fun h => h, fun _ h => h,
      fun _ _ hm => absurd hm List.not_mem_nil⟩
  | cons n names ih =>
    rw [observe]
    cases hp : w.params n with
    | none =>
      exact ⟨rfl, rfl, fun _ _ _ => Iff.rfl, fun h => h, fun _ h => h, fun h => by simp at h⟩
    | some p =>
      have h := ih (n :: observed) (w.setParam n (p.addObserver ptr))
      have hother : ∀ q m, q ≠ ptr →
          ((w.setParam n (p.addObserver ptr)).Observes q m ↔ w.Observes q m) := by
        intro q m hq
        rw [observes_setParam hp]
        split_ifs with hm
        · subst hm
          simp [Observes, hp, hq]
        · exact Iff.rfl
      refine ⟨h.layouts, h.sym.trans (sym_setParam hp rfl), fun q m hq => ?_, fun hsame => ?_,
        fun m hm => h.mono m (List.mem_cons_of_mem n hm), fun hok m hm => ?_⟩
      · exact (h.others q m hq).trans (hother q m hq)
      · refine h.same fun m => ?_
        rw [observes_setParam hp, List.mem_cons]
        split_ifs with hm
        · simp [hm]
        · simpa [hm] using hsame m
      · rcases List.mem_cons.mp hm with rfl | hm
        · exact h.mono m (List.mem_cons_self ..)
        · exact h.all hok m hm

theorem sym_forget (observed : List Str) : (w.forget ptr observed).sym = w.sym := by
  funext m
  by_cases hm : m ∈ observed
  · cases hp : w.params m <;> simp [sym, forget, hm, hp]
  · simp [sym, forget, hm]

theorem observes_forget {observed : List Str} :
    (w.forget ptr observed).Observes q m ↔ w.Observes q m ∧ ¬ (q = ptr ∧ m ∈ observed) := by
  by_cases hm : m ∈ observed
  · cases hp : w.params m <;> simp [Observes, forget, hm, hp]
  · simp [Observes, forget, hm]

/-- After a notification the layout is as its descriptors say, and the rest as before. -/
theorem notify_eq_ok (h : w.notify default ptr = .ok w') :
    ∃ l vectors errors, w.layouts ptr = some l ∧
      (interpretDimensions default w.sym l.model).outcome = .ok (vectors, errors) ∧
      w' = w.setLayout ptr (some { l with vectors := vectors }) := by
  unfold notify at h
  cases hl : w.layouts ptr with
  | none => simp [hl] at h
  | some l =>
    cases hi : (interpretDimensions default w.sym l.model).outcome with
    | error e => simp [hl, hi] at h
    | ok r =>
      simp only [hl, hi, Except.ok.injEq] at h
      exact ⟨l, r.1, r.2, rfl, hi, h.symm⟩

/-- The layouts at `ptrs` are interpreted again, the others left as they are. -/
structure Refreshed (default : Language) (ptrs : List ℕ) (w w' : Registry) : Prop where
  params : w'.params = w.params
  others : ∀ q ∉ ptrs, w'.layouts q = w.layouts q
  notified : ∀ q ∈ ptrs, ∃ l vectors errors, w.layouts q = some l ∧
    (interpretDimensions default w.sym l.model).outcome = .ok (vectors, errors) ∧
    w'.layouts q = some { l with vectors := vectors }

/-- A layout comes from one of the same model, which observed the same. -/
theorem Refreshed.layout_cases {ptrs : List ℕ} {l' : BoxLayout} (h : Refreshed default ptrs w w')
    (hl' : w'.layouts q = some l') :
    ∃ l, w.layouts q = some l ∧ l.model = l'.model ∧ l.observed = l'.observed ∧
      ((q ∉ ptrs ∧ l = l') ∨ ∃ errors,
        (interpretDimensions default w.sym l'.model).outcome = .ok (l'.vectors, errors)) := by
  by_cases hq : q ∈ ptrs
  · obtain ⟨l, vectors, errors, hl, hint, hw'⟩ := h.notified q hq
    obtain rfl := Option.some.inj (hw'.symm.trans hl')
    exact ⟨l, hl, rfl, rfl, .inr ⟨errors, hint⟩⟩
  · exact ⟨l', (h.others q hq).symm.trans hl', rfl, rfl, .inl ⟨hq, rfl⟩⟩

theorem Refreshed.observed_iff {ptrs : List ℕ} (h : Refreshed default ptrs w w') :
    (∃ l', w'.layouts q = some l' ∧ m ∈ l'.observed) ↔
      ∃ l, w.layouts q = some l ∧ m ∈ l.observed := by
  constructor
  · rintro ⟨l', hl', hm⟩
    obtain ⟨l, hl, -, hobs, -⟩ := h.layout_cases hl'
    exact ⟨l, hl, hobs ▸ hm⟩
  · rintro ⟨l, hl, hm⟩
    by_cases hq : q ∈ ptrs
    · obtain ⟨l₀, vectors, errors, hl₀, -, hw'⟩ := h.notified q hq
      obtain rfl := Option.some.inj (hl.symm.trans hl₀)
      exact ⟨_, hw', hm⟩
    · exact ⟨l, (h.others q hq).trans hl, hm⟩

theorem changed_spec {ptrs : List ℕ} (h : changed default ptrs w = .ok w') :
    Refreshed default ptrs w w' := by
  induction ptrs generalizing w with
  | nil =>
    obtain rfl : w = w' := Except.ok.inj h
    exact ⟨rfl, fun _ _ => rfl, fun _ hq => absurd hq List.not_mem_nil⟩
  | cons ptr rest ih =>
    rw [changed] at h
    cases hnotify : w.notify default ptr with
    | error e => simp [hnotify] at h
    | ok w₁ =>
      obtain ⟨l, vectors, errors, hl, hi, rfl⟩ := notify_eq_ok hnotify
      simp only [hnotify] at h
      have hrest := ih h
      refine ⟨hrest.params, fun q hq => ?_, fun q hq => ?_⟩
      · rw [hrest.others q fun hm => hq (List.mem_cons_of_mem ptr hm),
          layouts_setLayout_of_ne fun he : q = ptr => hq (he ▸ List.mem_cons_self ..)]
      · by_cases hqr : q ∈ rest
        · obtain ⟨l', vectors', errors', hl', hi', hw'⟩ := hrest.notified q hqr
          by_cases hqp : q = ptr
          · subst hqp
            obtain rfl := Option.some.inj ((layouts_setLayout_self _).symm.trans hl')
            exact ⟨l, vectors', errors', hl, hi', hw'⟩
          · rw [layouts_setLayout_of_ne hqp] at hl'
            exact ⟨l', vectors', errors', hl', hi', hw'⟩
        · obtain rfl : q = ptr := (List.mem_cons.mp hq).resolve_right hqr
          refine ⟨l, vectors, errors, hl, hi, ?_⟩
          rw [hrest.others q hqr, layouts_setLayout_self]

theorem notify_fault {e : Fault} {l : BoxLayout} (hl : w.layouts ptr = some l)
    (h : w.notify default ptr = .error e) :
    (interpretDimensions default w.sym l.model).outcome = .error e := by
  unfold notify at h
  cases hi : (interpretDimensions default w.sym l.model).outcome with
  | error e' => simpa [hl, hi] using h
  | ok r => simp [hl, hi] at h

/-- Where every pointer points to a layout, the fault is one of an interpretation. -/
theorem changed_fault {ptrs : List ℕ} {e : Fault} (hlive : ∀ q ∈ ptrs, ∃ l, w.layouts q = some l)
    (h : changed default ptrs w = .error e) :
    ∃ q ∈ ptrs, ∃ l, w.layouts q = some l ∧
      (interpretDimensions default w.sym l.model).outcome = .error e := by
  induction ptrs generalizing w with
  | nil => simp [changed] at h
  | cons ptr rest ih =>
    obtain ⟨l, hl⟩ := hlive ptr (List.mem_cons_self ..)
    rw [changed] at h
    cases hnotify : w.notify default ptr with
    | error e' =>
      obtain rfl : e' = e := by simpa [hnotify] using h
      exact ⟨ptr, List.mem_cons_self .., l, hl, notify_fault hl hnotify⟩
    | ok w₁ =>
      obtain ⟨l₀, vectors, errors, hl₀, -, rfl⟩ := notify_eq_ok hnotify
      obtain rfl := Option.some.inj (hl.symm.trans hl₀)
      simp only [hnotify] at h
      have hstill : ∀ q ∈ rest,
          ∃ l', (w.setLayout ptr (some { l with vectors := vectors })).layouts q = some l' := by
        intro q hq
        by_cases hqp : q = ptr
        · exact hqp ▸ ⟨_, layouts_setLayout_self _⟩
        · rw [layouts_setLayout_of_ne hqp]
          exact hlive q (List.mem_cons_of_mem ptr hq)
      obtain ⟨q, hq, l', hl', hfault⟩ := ih hstill h
      by_cases hqp : q = ptr
      · subst hqp
        obtain rfl := Option.some.inj ((layouts_setLayout_self _).symm.trans hl')
        exact ⟨q, List.mem_cons_self .., l, hl, hfault⟩
      · rw [layouts_setLayout_of_ne hqp] at hl'
        exact ⟨q, List.mem_cons_of_mem ptr hq, l', hl', hfault⟩

end Operations

/-! ### Every layout follows its parameters -/

/-- The vectors are what the descriptors say now. -/
def Current (w : Registry) (l : BoxLayout) : Prop :=
  ∃ errors, (interpretDimensions default w.sym l.model).outcome = .ok (l.vectors, errors)

structure Inv (w : Registry) : Prop where
  current : ∀ ptr l, w.layouts ptr = some l → w.Current default l
  observed : ∀ ptr l, w.layouts ptr = some l → ∀ n ∈ dependentParameters l.model, n ∈ l.observed
  registered : ∀ ptr n, w.Observes ptr n ↔ ∃ l, w.layouts ptr = some l ∧ n ∈ l.observed

variable {default} {w w' : Registry}

theorem inv_initial (values : Str → Option ℤ) : Inv default (initial values) where
  current ptr l hl := absurd hl.symm (Option.some_ne_none l)
  observed ptr l hl := absurd hl.symm (Option.some_ne_none l)
  registered ptr n := by
    cases hv : values n <;> simp [Observes, initial, Parameter.new, hv]

/-- No parameter points to an address without a layout. -/
theorem Inv.not_observes (hi : Inv default w) {ptr : ℕ} (hfree : w.layouts ptr = none) (n : Str) :
    ¬ w.Observes ptr n := by
  rw [hi.registered]
  rintro ⟨l, hl, -⟩
  exact absurd (hl.symm.trans hfree) (Option.some_ne_none l)

/-- Where the values and the layouts stay, the invariant is about the pointers. -/
theorem Inv.of_same (hi : Inv default w) (hlayouts : w'.layouts = w.layouts) (hsym : w'.sym = w.sym)
    (hobs : ∀ q n, w'.Observes q n ↔ w.Observes q n) : Inv default w' where
  current ptr l hl := by
    rw [Current, hsym]
    exact hi.current ptr l (hlayouts ▸ hl)
  observed ptr l hl := hi.observed ptr l (hlayouts ▸ hl)
  registered ptr n := by rw [hobs, hlayouts, hi.registered]

theorem Inv.new (hi : Inv default w) {ptr : ℕ} (hfree : w.layouts ptr = none) {mdl : LayoutModel}
    {name : Str} {ok : Bool} (h : w.new default ptr mdl name = .ok (w', ok)) : Inv default w' := by
  have hnone := hi.not_observes hfree
  have hspec := observe_spec ptr (dependentParameters mdl) [] w
  unfold Registry.new at h
  split_ifs at h with hslash
  · obtain rfl : w = w' := congrArg Prod.fst (Except.ok.inj h)
    exact hi
  rcases hobs : w.observe ptr (dependentParameters mdl) [] with ⟨w₁, observed, _ | _⟩ <;>
    rw [hobs] at hspec <;> simp only [hobs] at h
  · -- the destructor of the layout that was refused takes its pointers back
    obtain rfl : w₁.forget ptr observed = w' := congrArg Prod.fst (Except.ok.inj h)
    refine hi.of_same hspec.layouts ((sym_forget observed).trans hspec.sym) fun q n => ?_
    rw [observes_forget]
    have hsame := hspec.same (fun m => iff_of_false (hnone m) List.not_mem_nil) n
    by_cases hq : q = ptr
    · subst hq
      simpa [hsame] using hnone n
    · simpa [hq] using hspec.others q n hq
  · cases hint : (interpretDimensions default w₁.sym mdl).outcome with
    | error e => simp [hint] at h
    | ok r =>
      simp only [hint] at h
      obtain rfl : w₁.setLayout ptr (some ⟨mdl, name, r.1, observed⟩) = w' :=
        congrArg Prod.fst (Except.ok.inj h)
      have hother : ∀ q, q ≠ ptr →
          (w₁.setLayout ptr (some ⟨mdl, name, r.1, observed⟩)).layouts q = w.layouts q :=
        fun q hq => (layouts_setLayout_of_ne hq _).trans (congrFun hspec.layouts q)
      refine ⟨fun q l hl => ?_, fun q l hl => ?_, fun q n => ?_⟩
      · by_cases hq : q = ptr
        · subst hq
          obtain rfl := Option.some.inj ((layouts_setLayout_self _).symm.trans hl)
          exact ⟨r.2, hint⟩
        · rw [Current, sym_setLayout, hspec.sym]
          exact hi.current q l ((hother q hq).symm.trans hl)
      · by_cases hq : q = ptr
        · subst hq
          obtain rfl := Option.some.inj ((layouts_setLayout_self _).symm.trans hl)
          exact hspec.all rfl
        · exact hi.observed q l ((hother q hq).symm.trans hl)
      · have hsame := hspec.same (fun m => iff_of_false (hnone m) List.not_mem_nil) n
        by_cases hq : q = ptr
        · subst hq
          simpa [Observes] using hsame
        · rw [hother q hq, ← hi.registered]
          exact hspec.others q n hq

theorem Inv.destroy (hi : Inv default w) {ptr : ℕ} {l : BoxLayout} (hl : w.layouts ptr = some l) :
    Inv default (w.destroy ptr l) := by
  have hother : ∀ q, q ≠ ptr → (w.destroy ptr l).layouts q = w.layouts q :=
    fun q hq => layouts_setLayout_of_ne hq none
  have hself : (w.destroy ptr l).layouts ptr = none := layouts_setLayout_self none
  have hne : ∀ q l', (w.destroy ptr l).layouts q = some l' → q ≠ ptr := by
    rintro q l' hl' rfl
    exact absurd (hl'.symm.trans hself) (Option.some_ne_none l')
  refine ⟨fun q l' hl' => ?_, fun q l' hl' => ?_, fun q n => ?_⟩
  · rw [Current, Registry.destroy, sym_setLayout, sym_forget]
    exact hi.current q l' ((hother q (hne q l' hl')).symm.trans hl')
  · exact hi.observed q l' ((hother q (hne q l' hl')).symm.trans hl')
  · have hobs : (w.destroy ptr l).Observes q n ↔ w.Observes q n ∧ ¬ (q = ptr ∧ n ∈ l.observed) :=
      observes_forget
    rw [hobs, hi.registered]
    by_cases hq : q = ptr
    · subst hq
      simp [hself, hl]
    · simp [hq, hother q hq]

theorem Inv.fromBuffer (hi : Inv default w) {n : Str} {buffer : List UInt8}
    (h : w.fromBuffer default n buffer = .ok w') : Inv default w' := by
  unfold Registry.fromBuffer at h
  cases hp : w.params n with
  | none =>
    simp only [hp, Except.ok.injEq] at h
    exact h ▸ hi
  | some p =>
    simp only [hp] at h
    have hspec := changed_spec h
    have hsym : w'.sym = (w.setParam n (p.fromBuffer buffer)).sym := by
      funext m
      simp only [sym, hspec.params]
    -- a layout whose vectors stay does not depend on the parameter
    have hkept : ∀ q l, q ∉ p.observers → w.layouts q = some l →
        interpretDimensions default w'.sym l.model = interpretDimensions default w.sym l.model := by
      intro q l hq hl
      refine interpretDimensions_congr default l.model fun m hm => ?_
      have hmn : m ≠ n := by
        rintro rfl
        obtain ⟨p', hp', hmem⟩ := (hi.registered q m).mpr ⟨l, hl, hi.observed q l hl m hm⟩
        exact hq (Option.some.inj (hp'.symm.trans hp) ▸ hmem)
      rw [hsym, sym_setParam_of_ne hmn]
    refine ⟨fun q l' hl' => ?_, fun q l' hl' m hm => ?_, fun q m => ?_⟩
    · obtain ⟨l, hl, -, -, ⟨hq, rfl⟩ | ⟨errors, hint⟩⟩ := hspec.layout_cases hl'
      · rw [Current, hkept q l hq hl]
        exact hi.current q l hl
      · exact ⟨errors, hsym ▸ hint⟩
    · obtain ⟨l, hl, hmodel, hobs, -⟩ := hspec.layout_cases hl'
      exact hobs ▸ hi.observed q l hl m (hmodel ▸ hm)
    · have hobs : w'.Observes q m ↔ (w.setParam n (p.fromBuffer buffer)).Observes q m := by
        simp only [Observes, hspec.params]
      rw [hobs, observes_setParam_fromBuffer hp, hspec.observed_iff]
      exact hi.registered q m

theorem inv_step {w w' : Registry} {a : Act} (hi : Inv default w) (h : step default w a = some w') :
    Inv default w' := by
  have hok : ∀ {x : Except Fault Registry}, x.toOption = some w' → x = .ok w' := by
    intro x hx
    cases x with
    | error e => exact absurd hx.symm (Option.some_ne_none w')
    | ok y => exact congrArg Except.ok (Option.some.inj hx)
  cases a with
  | new ptr mdl name =>
    simp only [step] at h
    split_ifs at h with hfree
    obtain ⟨⟨w₁, ok⟩, hnew, rfl⟩ := Option.map_eq_some_iff.mp h
    cases hr : w.new default ptr mdl name with
    | error e => simp [hr, Except.toOption] at hnew
    | ok r =>
      obtain rfl : r = (w₁, ok) := by simpa [hr, Except.toOption] using hnew
      exact hi.new (Option.isNone_iff_eq_none.mp hfree) hr
  | destroy ptr =>
    obtain ⟨l, hl, rfl⟩ := Option.map_eq_some_iff.mp h
    exact hi.destroy hl
  | fromBuffer n buffer => exact hi.fromBuffer (hok h)
  | setValue n v => exact hi.fromBuffer (hok h)

theorem inv_run (values : Str → Option ℤ) {acts : List Act}
    (hr : StepSystem.run (step default) (initial values) acts = some w) : Inv default w :=
  StepSystem.run_invariant (fun _ _ _ hi hs => inv_step hi hs) (inv_initial values) hr

/-- A change of a parameter fails only where a layout that observes it cannot be
computed from the new values. -/
theorem fromBuffer_fault (hi : Inv default w) {n : Str} {buffer : List UInt8} {e : Fault}
    (h : w.fromBuffer default n buffer = .error e) :
    ∃ p ptr l, w.params n = some p ∧ w.layouts ptr = some l ∧ n ∈ l.observed ∧
      (interpretDimensions default (w.setParam n (p.fromBuffer buffer)).sym l.model).outcome =
        .error e := by
  unfold Registry.fromBuffer at h
  cases hp : w.params n with
  | none => simp [hp] at h
  | some p =>
    simp only [hp] at h
    have hlayout : ∀ q ∈ p.observers, ∃ l, w.layouts q = some l ∧ n ∈ l.observed :=
      fun q hq => (hi.registered q n).mp ⟨p, hp, hq⟩
    obtain ⟨q, hq, l, hl, hfault⟩ := changed_fault
      (w := w.setParam n (p.fromBuffer buffer)) (fun q hq => (hlayout q hq).imp fun _ => And.left) h
    obtain ⟨l₀, hl₀, hn⟩ := hlayout q hq
    obtain rfl := Option.some.inj (hl₀.symm.trans hl)
    exact ⟨p, q, l₀, rfl, hl, hn, hfault⟩

/-- Whatever parameters are set, and however, every layout is what its
descriptors say under the current values, and it observes each parameter that
`Calc` evaluates in them under any values. -/
theorem layouts_follow_parameters (default : Language) (values : Str → Option ℤ) (acts : List Act)
    (w : Registry) (hr : StepSystem.run (step default) (initial values) acts = some w) (ptr : ℕ)
    (l : BoxLayout) (hl : w.layouts ptr = some l) :
    (∃ errors, (interpretDimensions default w.sym l.model).outcome = .ok (l.vectors, errors)) ∧
      ∀ sym, ∀ n ∈ (interpretDimensions default sym l.model).asked, w.Observes ptr n := by
  have hi := inv_run values hr
  refine ⟨hi.current ptr l hl, fun sym n hn => ?_⟩
  exact (hi.registered ptr n).mpr ⟨l, hl, hi.observed ptr l hl n (asked_interpretDimensions hn)⟩

/-- A layout of two dimensions over one parameter, which is then set to 7, and to
a value of which only the lowest byte is passed. -/
def resizing : List Act :=
  let mdl : LayoutModel :=
    ⟨"grid".toList, "n, 2*n".toList, "#".toList, "1:n,0".toList, .fortran⟩
  [.new 0 mdl "grid".toList, .setValue "n".toList 263, .fromBuffer "n".toList [5]]

def resized : Option Registry :=
  StepSystem.run (step .c) (initial fun n => if n = "n".toList then some 3 else none) resizing

theorem resized_isSome : resized.isSome = true := by decide +kernel

theorem layouts_follow_parameters_resized :
    ∃ w l, resized = some w ∧ w.layouts 0 = some l ∧
      l.vectors = ⟨[522, 261], [522, 261], [(0, 0), (1, 261)]⟩ ∧ w.Current .c l ∧
      ∀ sym, ∀ n ∈ (interpretDimensions .c sym l.model).asked, w.Observes 0 n := by
  have hw : resized = some (resized.get resized_isSome) := (Option.some_get resized_isSome).symm
  have hv : ((resized.get resized_isSome).layouts 0).map BoxLayout.vectors =
      some ⟨[522, 261], [522, 261], [(0, 0), (1, 261)]⟩ := by decide +kernel
  obtain ⟨l, hl, hvectors⟩ := Option.map_eq_some_iff.mp hv
  exact ⟨_, l, hw, hl, hvectors, layouts_follow_parameters .c _ resizing _ hw 0 l hl⟩

end Registry
end Damaris
