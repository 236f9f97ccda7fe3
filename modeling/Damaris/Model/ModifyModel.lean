import Mathlib.Tactic

/-!
# The model that can be changed before it is used

A `ModifyModel` holds a configuration text, the model last built from it and a flag that says whether
the model may be given away. Seen from outside it is a box: a call that builds a model fills it, a
call that fails empties it, and a call that gives the model away empties it too.
-/
namespace Damaris.Model

/-! ## Histories -/

/-- Something with `P` happened, and nothing with `Q` after it. -/
def Since {α : Type*} (P Q : α → Prop) (history : List α) : Prop :=
  ∃ before x after, history = before ++ x :: after ∧ P x ∧ ∀ y ∈ after, ¬ Q y

section Since

variable {α : Type*} {P Q : α → Prop}

@[simp] theorem not_since_nil : ¬ Since P Q [] := by
  rintro ⟨before, x, after, h, -⟩
  cases before <;> cases h

/-- The newest entry has `P`, or it does not have `Q` and the older ones decide. -/
theorem since_concat_iff {history : List α} {x : α} :
    Since P Q (history ++ [x]) ↔ P x ∨ ¬ Q x ∧ Since P Q history := by
  constructor
  · rintro ⟨before, y, after, h, hP, hQ⟩
    obtain rfl | ⟨after, z, rfl⟩ := after.eq_nil_or_concat'
    · obtain ⟨-, hy⟩ := List.append_inj' h rfl
      exact .inl (List.head_eq_of_cons_eq hy ▸ hP)
    · rw [← List.cons_append, ← List.append_assoc] at h
      obtain ⟨rfl, hz⟩ := List.append_inj' h rfl
      obtain rfl : x = z := List.head_eq_of_cons_eq hz
      exact .inr ⟨hQ x (by simp), before, y, after, rfl, hP, fun w hw => hQ w (by simp [hw])⟩
  · rintro (hP | ⟨hx, before, y, after, rfl, hP, hQ⟩)
    · exact ⟨history, x, [], rfl, hP, by simp⟩
    · refine ⟨before, y, after ++ [x], by simp, hP, fun w hw => ?_⟩
      obtain hw | rfl : w ∈ after ∨ w = x := by simpa using hw
      · exact hQ w hw
      · exact hx

end Since

/-! ## The class -/

/-- `none` in `simModel_` is the null pointer. -/
structure ModifyModel (M : Type*) where
  config_xml_ : String
  simModel_ : Option M
  converted_ : Bool

/-- The calls; every call that only changes the configuration text is a `setXMLstring`. -/
inductive ModifyCall
  | setXMLstring (xml : String)
  | setSimulationModel
  | returnSimulationModel
  | passModelAsVoidPtr

/-- What a call did: the model it built (`none` for an exception), or the pointer it returned. -/
inductive ModifyEvent (M : Type*)
  | text
  | built (model : Option M)
  | returned (pointer : Option M)
  | passed (pointer : Option M)

namespace ModifyModel

variable {M : Type*} (simulation : String → Option M)

def new (xml : String) : ModifyModel M := ⟨xml, none, false⟩

/-- An `xml_schema::exception` leaves the old model in its place and takes the flag back. -/
def setSimulationModel (s : ModifyModel M) : Bool × ModifyModel M :=
  match simulation s.config_xml_ with
  | some model => (true, { s with simModel_ := some model, converted_ := true })
  | none => (false, { s with converted_ := false })

def passModelAsVoidPtr (s : ModifyModel M) : Option M × ModifyModel M :=
  if s.converted_ then (s.simModel_, { s with converted_ := false, simModel_ := none })
  else (none, s)

/-- The assignment to `converted_` stands after the `return` and is never reached. -/
def returnSimulationModel (s : ModifyModel M) : Option M × ModifyModel M :=
  if s.converted_ then (s.simModel_, { s with simModel_ := none })
  else (none, s)

def step (s : ModifyModel M) : ModifyCall → ModifyEvent M × ModifyModel M
  | .setXMLstring xml => (.text, { s with config_xml_ := xml })
  | .setSimulationModel => (.built (simulation s.config_xml_), (s.setSimulationModel simulation).2)
  | .returnSimulationModel => (.returned s.returnSimulationModel.1, s.returnSimulationModel.2)
  | .passModelAsVoidPtr => (.passed s.passModelAsVoidPtr.1, s.passModelAsVoidPtr.2)

/-- The history of a sequence of calls, oldest first, and the state after it. -/
def run (xml : String) (calls : List ModifyCall) : List (ModifyEvent M) × ModifyModel M :=
  calls.foldl (fun r call => (r.1 ++ [(r.2.step simulation call).1], (r.2.step simulation call).2))
    ([], new xml)

end ModifyModel

namespace ModifyEvent

variable {M : Type*}

def Success : ModifyEvent M → Prop
  | built model => model.isSome
  | _ => False

def HandOut : ModifyEvent M → Prop
  | returned pointer | passed pointer => pointer.isSome
  | _ => False

def IsSet : ModifyEvent M → Prop
  | built _ => True
  | _ => False

/-- `ReturnSimulationModel` gave a model away. -/
def Returned : ModifyEvent M → Prop
  | returned pointer => pointer.isSome
  | _ => False

/-- The calls that write the flag. -/
def Resets : ModifyEvent M → Prop
  | built _ | passed _ => True
  | _ => False

/-- The model is built, not given away since, and no later attempt failed. -/
def Ready (history : List (ModifyEvent M)) : Prop :=
  Since Success (fun e => HandOut e ∨ IsSet e) history

end ModifyEvent

/-! ## The box -/

namespace ModifyModel

variable {M : Type*} {simulation : String → Option M} {s : ModifyModel M}

/-- What the next call may give away. -/
def offer (s : ModifyModel M) : Option M := if s.converted_ then s.simModel_ else none

theorem returnSimulationModel_fst : s.returnSimulationModel.1 = s.offer := by
  unfold returnSimulationModel offer
  split <;> rfl

theorem passModelAsVoidPtr_fst : s.passModelAsVoidPtr.1 = s.offer := by
  unfold passModelAsVoidPtr offer
  split <;> rfl

/-- One call on the box. -/
theorem offer_step (call : ModifyCall) : (s.step simulation call).2.offer =
    match call with
    | .setXMLstring _ => s.offer
    | .setSimulationModel => simulation s.config_xml_
    | .returnSimulationModel | .passModelAsVoidPtr => none := by
  cases call with
  | setXMLstring xml => rfl
  | setSimulationModel =>
    simp only [step, setSimulationModel]
    split <;> simp_all [offer]
  | returnSimulationModel =>
    simp only [step, returnSimulationModel]
    split <;> simp_all [offer]
  | passModelAsVoidPtr =>
    simp only [step, passModelAsVoidPtr]
    split <;> simp_all [offer]

theorem run_concat (xml : String) (calls : List ModifyCall) (call : ModifyCall) :
    run simulation xml (calls ++ [call]) =
      ((run simulation xml calls).1 ++ [((run simulation xml calls).2.step simulation call).1],
        ((run simulation xml calls).2.step simulation call).2) := by
  simp [run]

/-- The box is full exactly while the history is ready. -/
theorem ready_run_iff (xml : String) (calls : List ModifyCall) :
    ModifyEvent.Ready (run simulation xml calls).1 ↔ (run simulation xml calls).2.offer.isSome := by
  induction calls using List.reverseRecOn with
  | nil => simp [run, new, offer, ModifyEvent.Ready]
  | append_singleton calls call ih =>
    rw [run_concat]
    generalize run simulation xml calls = r at ih
    rw [ModifyEvent.Ready] at ih ⊢
    dsimp only
    rw [since_concat_iff, ih, offer_step]
    cases call with
    | setXMLstring xml => simp [step, ModifyEvent.Success, ModifyEvent.HandOut, ModifyEvent.IsSet]
    | setSimulationModel => simp [step, ModifyEvent.Success, ModifyEvent.IsSet]
    | returnSimulationModel =>
      simp [step, returnSimulationModel_fst, ModifyEvent.Success, ModifyEvent.HandOut,
        ModifyEvent.IsSet]
    | passModelAsVoidPtr =>
      simp [step, passModelAsVoidPtr_fst, ModifyEvent.Success, ModifyEvent.HandOut,
        ModifyEvent.IsSet]

/-- The flag stands over an empty pointer only between a model that `ReturnSimulationModel` gave
away and the next call that writes the flag. -/
theorem converted_run (xml : String) (calls : List ModifyCall)
    (h : ¬ Since ModifyEvent.Returned ModifyEvent.Resets (run simulation xml calls).1)
    (hconv : (run simulation xml calls).2.converted_) :
    (run simulation xml calls).2.simModel_.isSome := by
  induction calls using List.reverseRecOn with
  | nil => cases hconv
  | append_singleton calls call ih =>
    rw [run_concat] at h hconv ⊢
    generalize run simulation xml calls = r at ih h hconv
    dsimp only at h hconv ⊢
    rw [since_concat_iff, not_or, not_and] at h
    cases call with
    | setXMLstring xml => exact ih (h.2 (by simp [step, ModifyEvent.Resets])) hconv
    | setSimulationModel =>
      simp only [step, setSimulationModel] at hconv ⊢
      split at hconv <;> simp_all
    | returnSimulationModel =>
      have hset := ih (h.2 (by simp [step, ModifyEvent.Resets]))
      have hnone : ¬ r.2.offer.isSome := by
        simpa [step, returnSimulationModel_fst, ModifyEvent.Returned] using h.1
      simp only [step, returnSimulationModel] at hconv
      split at hconv <;> simp_all [offer]
    | passModelAsVoidPtr =>
      simp only [step, passModelAsVoidPtr] at hconv
      split at hconv <;> simp_all

/-- A hand-out gives a model exactly if one was built since the last one and the latest attempt to
build did not fail. -/
theorem handOut_iff_ready (simulation : String → Option M) (xml : String)
    (calls : List ModifyCall) :
    (¬ Since ModifyEvent.Returned ModifyEvent.Resets (run simulation xml calls).1 →
      (run simulation xml calls).2.converted_ → (run simulation xml calls).2.simModel_.isSome) ∧
    ((run simulation xml calls).2.returnSimulationModel.1.isSome ↔
      ModifyEvent.Ready (run simulation xml calls).1) ∧
    ((run simulation xml calls).2.passModelAsVoidPtr.1.isSome ↔
      ModifyEvent.Ready (run simulation xml calls).1) := by
  rw [returnSimulationModel_fst, passModelAsVoidPtr_fst, ready_run_iff]
  exact ⟨converted_run xml calls, Iff.rfl, Iff.rfl⟩

/-- After one attempt that builds a model, a hand-out leaves the flag over an empty pointer, and a
failed attempt makes the next hand-out give nothing. -/
theorem not_handOut_iff_built :
    let simulation : String → Option Unit := fun xml => if xml.length = 0 then none else some ()
    let slip := run simulation "<simulation/>" [.setSimulationModel, .returnSimulationModel]
    let failed := run simulation "<simulation/>"
      [.setSimulationModel, .setXMLstring "", .setSimulationModel]
    (slip.2.converted_ = true ∧ slip.2.simModel_ = none) ∧
      Since ModifyEvent.Success ModifyEvent.HandOut failed.1 ∧
      failed.2.returnSimulationModel.1 = none ∧ failed.2.passModelAsVoidPtr.1 = none := by
  refine ⟨⟨rfl, rfl⟩, ⟨[], _, _, rfl, ?_, ?_⟩, rfl, rfl⟩
  · simp [step, new, ModifyEvent.Success]
  · simp [step, new, setSimulationModel, ModifyEvent.HandOut]

end ModifyModel

end Damaris.Model
