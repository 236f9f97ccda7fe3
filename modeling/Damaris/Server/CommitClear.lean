import Mathlib.Tactic
import Damaris.Lib.StepSystem
import Damaris.Client.Client
import Damaris.Server.Handlers

/-!
# Commit and Clear, from the client to the server

Clients that allocate, commit and clear blocks, and the server that handles the
messages. Both have the variables of one configuration; the server may lose
blocks in between. Only calls that return `OK` are steps.
-/
namespace Damaris.Server.CommitClear

open Damaris.Data Damaris.Msg

inductive Message (A : Type*)
  | commit (wr : WriteMessage (Option A))
  | clear (m : ClearMessage)

structure State (C A : Type*) where
  clients : C → Client A
  queue : C → List (Message A)
  vars : Variables A

inductive Action (C A : Type*)
  | alloc (c : C) (id block : ℤ) (buffer : Option (Buffer Unit A))
  | commit (c : C) (id block iteration : ℤ)
  | clear (c : C) (id block iteration : ℤ)
  | endIteration (c : C)
  | handle (c : C)
  | discard (keep : ℤ → Block A → Bool)

variable {C A : Type*}

/-- The handler of a message; `none` when it dereferences a null block. -/
def receive (vs : Variables A) (source : ℤ) : Message A → Option (Variables A)
  | .commit wr => vs.onCommit (some shared) source wr
  | .clear m => vs.onClear source m

namespace State

variable [DecidableEq C]

/-- Client `c` after a call, which has sent `out`. -/
def called (s : State C A) (c : C) (client : Client A) (out : List (Message A)) : State C A :=
  { s with
    clients := Function.update s.clients c client
    queue := Function.update s.queue c (s.queue c ++ out) }

def step (s : State C A) : Action C A → Option (State C A)
  | .alloc c id block buffer =>
    match (s.clients c).alloc id block buffer with
    | (client, .OK) => some (s.called c client [])
    | _ => none
  | .commit c id block iteration =>
    match (s.clients c).commit id block iteration with
    | (client, .OK, some wr) => some (s.called c client [.commit wr])
    | _ => none
  | .clear c id block iteration =>
    match (s.clients c).clear id block iteration with
    | (client, .OK, some m) => some (s.called c client [.clear m])
    | _ => none
  | .endIteration c =>
    some (s.called c { s.clients c with iteration := (s.clients c).iteration + 1 } [])
  | .handle c =>
    match s.queue c with
    | [] => none
    | m :: rest => (receive s.vars (s.clients c).source m).map fun vs =>
      { s with queue := Function.update s.queue c rest, vars := vs }
  | .discard keep => some { s with vars := s.vars.discard keep }

def initial (config : ℤ → Option (Bool × Layout)) (source : C → ℤ) (numDomains : ℤ) : State C A :=
  ⟨fun c => ⟨source c, 0, numDomains, .new config, false⟩, fun _ => [], .new config⟩

/-- The claim on a step: the handler that runs dereferences no null block. -/
def Total (s : State C A) : Action C A → Prop
  | .handle c => ∀ m rest, s.queue c = m :: rest → (receive s.vars (s.clients c).source m).isSome
  | _ => True

end State

/-- The server stores no block yet under the key of a commit, and does store
one under the key of a clear. -/
def Expects (vs : Variables A) (source : ℤ) : Message A → Prop
  | .commit wr => ∀ v, vs wr.id = some v → v.getBlock source wr.iteration wr.block = none
  | .clear m => ∀ v, vs m.id = some v → v.getBlock source m.iteration m.block ≠ none

/-- The condition on a step. -/
def State.Expected (s : State C A) : Action C A → Prop
  | .handle c => ∀ m rest, s.queue c = m :: rest → Expects s.vars (s.clients c).source m
  | _ => True

/-! ## What the messages carry -/

/-- A commit names data and has the dimensions of its variable's layout. -/
def Message.Formed (config : ℤ → Option (Bool × Layout)) : Message A → Prop
  | .commit wr => wr.handle ≠ none ∧
    ∀ x, config wr.id = some x → wr.dims.length = x.2.dimensions
  | .clear _ => True

/-- Every block of the client has its data. -/
def Backed (vs : Variables A) : Prop := ∀ id b, vs.Stores id b → b.dataspace ≠ none

variable {config : ℤ → Option (Bool × Layout)}

theorem commit_formed {c c' : Client A} {id block iteration : ℤ} {st : Status}
    {wr : WriteMessage (Option A)} (hc : c.vars.Configured config) (hb : Backed c.vars)
    (h : c.commit id block iteration = (c', st, some wr)) : Message.Formed config (.commit wr) := by
  obtain ⟨-, -, hmessage⟩ : Client.Keeps config _ _ ∧ _ := Client.commit_spec h
  obtain ⟨⟨rfl, -, v, hv, hdims⟩, b, hstores, hhandle⟩ := hmessage wr rfl
  refine ⟨hhandle ▸ hb wr.id b hstores, fun x hx => ?_⟩
  have hconf := hc wr.id
  rw [hv, Option.map_some] at hconf
  rw [hdims, ← Option.some.inj (hconf.trans hx)]

/-! ## What the handlers do with them -/

variable {vs vs' : Variables A} {source : ℤ}

theorem onCommit_isSome {wr : WriteMessage (Option A)} (hc : vs.Configured config)
    (hf : Message.Formed config (.commit wr)) :
    (vs.onCommit (some shared) source wr).isSome ↔ Expects vs source (.commit wr) := by
  unfold Variables.onCommit Expects
  cases hv : vs wr.id with
  | none => simp [hv]
  | some v =>
    have hdims : wr.dims.length = v.layout.dimensions :=
      hf.2 (v.timeVarying, v.layout) (by rw [← hc wr.id, hv, Option.map_some])
    obtain ⟨v', r, hr, hiff, -⟩ :=
      Variables.retrieveBounds_message v shared source wr.iteration wr.block wr.dims wr.handle
    have hblock : r ≠ none ↔ v.getBlock source wr.iteration wr.block = none := by
      rw [hiff]
      exact ⟨fun h => h.2.1, fun h => ⟨hdims, h, hf.1⟩⟩
    simp only [hv, hr, Option.some.injEq, forall_eq', ← hblock]
    cases r <;> simp

theorem onClear_isSome {m : ClearMessage} :
    (vs.onClear source m).isSome ↔ Expects vs source (.clear m) := by
  unfold Variables.onClear Expects
  cases hv : vs m.id with
  | none => simp [hv]
  | some v =>
    simp only [hv, Option.some.injEq, forall_eq']
    cases v.getBlock source m.iteration m.block <;> simp

theorem receive_isSome {m : Message A} (hc : vs.Configured config) (hf : m.Formed config) :
    (receive vs source m).isSome ↔ Expects vs source m := by
  cases m with
  | commit wr => exact onCommit_isSome hc hf
  | clear m => exact onClear_isSome

theorem receive_configured {m : Message A} (hc : vs.Configured config)
    (hr : receive vs source m = some vs') : vs'.Configured config := by
  cases m with
  | commit wr =>
    rcases Variables.onCommit_cases hr with ⟨rfl, -⟩ | ⟨v, v', b, hv, rfl, hret⟩
    · exact hc
    · have hadds := Variable.retrieveBounds_adds hret
      exact hc.set hv hadds.timeVarying hadds.layout
  | clear m =>
    rcases Variables.onClear_cases hr with ⟨rfl, -⟩ | ⟨v, b, hv, rfl, -⟩
    · exact hc
    · exact hc.set hv rfl rfl

/-! ## Whole runs -/

namespace State

set_option linter.unusedSectionVars false

variable [DecidableEq C] {s s' : State C A}

structure Inv (config : ℤ → Option (Bool × Layout)) (s : State C A) : Prop where
  clients : ∀ c, (s.clients c).vars.Configured config
  backed : ∀ c, Backed (s.clients c).vars
  queued : ∀ c, ∀ m ∈ s.queue c, m.Formed config
  server : s.vars.Configured config

theorem Inv.called (h : s.Inv config) {c : C} {client : Client A} {out : List (Message A)}
    (hk : client.vars.Configured config) (hb : Backed client.vars)
    (hout : ∀ m ∈ out, m.Formed config) : (s.called c client out).Inv config := by
  refine ⟨fun c' => ?_, fun c' => ?_, fun c' m hm => ?_, h.server⟩
  · by_cases hc : c' = c
    · subst hc
      simpa [State.called] using hk
    · simpa [State.called, hc] using h.clients c'
  · by_cases hc : c' = c
    · subst hc
      simpa [State.called] using hb
    · simpa [State.called, hc] using h.backed c'
  · by_cases hc : c' = c
    · subst hc
      simp only [State.called, Function.update_self] at hm
      rcases List.mem_append.mp hm with hm | hm
      · exact h.queued c' m hm
      · exact hout m hm
    · simp only [State.called, Function.update_of_ne hc] at hm
      exact h.queued c' m hm

theorem step_inv {a : Action C A} (h : s.Inv config) (hs : s.step a = some s') : s'.Inv config := by
  cases a with
  | alloc c id block buffer =>
    simp only [step] at hs
    split at hs
    · next client halloc =>
      obtain rfl := Option.some.inj hs
      obtain ⟨hk, hstores⟩ : Client.Keeps config _ _ ∧ _ := Client.alloc_spec halloc
      refine h.called (hk.configured (h.clients c)) (fun id' b hb => ?_) nofun
      exact (hstores rfl id' b hb).elim (h.backed c id' b) fun hds => hds
    · exact absurd hs nofun
  | commit c id block iteration =>
    simp only [step] at hs
    split at hs
    · next client wr hcommit =>
      obtain rfl := Option.some.inj hs
      obtain ⟨hk, hstores, -⟩ : Client.Keeps config _ _ ∧ _ := Client.commit_spec hcommit
      refine h.called (hk.configured (h.clients c)) (fun id' b hb => ?_) fun m hm => ?_
      · obtain ⟨d, hd, hds⟩ := hstores id' b hb
        rw [hds]
        exact h.backed c id' d hd
      · rw [List.mem_singleton.mp hm]
        exact commit_formed (h.clients c) (h.backed c) hcommit
    · exact absurd hs nofun
  | clear c id block iteration =>
    simp only [step] at hs
    split at hs
    · next client m hclear =>
      obtain rfl := Option.some.inj hs
      obtain ⟨hk, hstores⟩ : Client.Keeps config _ _ ∧ _ := Client.clear_spec hclear
      refine h.called (hk.configured (h.clients c)) (fun id' b hb => ?_) fun m' hm => ?_
      · obtain ⟨d, hd, hds⟩ := hstores id' b hb
        rw [hds]
        exact h.backed c id' d hd
      · rw [List.mem_singleton.mp hm]
        trivial
    · exact absurd hs nofun
  | endIteration c =>
    obtain rfl := Option.some.inj hs
    exact h.called (h.clients c) (h.backed c) nofun
  | handle c =>
    simp only [step] at hs
    split at hs
    · exact absurd hs nofun
    · next m rest hq =>
      obtain ⟨vs, hr, rfl⟩ := Option.map_eq_some_iff.mp hs
      refine ⟨h.clients, h.backed, fun c' m' hm' => ?_, receive_configured h.server hr⟩
      by_cases hc : c' = c
      · subst hc
        simp only [Function.update_self] at hm'
        exact h.queued c' m' (hq ▸ List.mem_cons_of_mem _ hm')
      · simp only [Function.update_of_ne hc] at hm'
        exact h.queued c' m' hm'
  | discard keep =>
    obtain rfl := Option.some.inj hs
    exact ⟨h.clients, h.backed, h.queued, h.server.discard keep⟩

theorem total_iff (h : s.Inv config) (a : Action C A) : s.Total a ↔ s.Expected a := by
  cases a with
  | handle c =>
    refine forall_congr' fun m => forall_congr' fun rest => forall_congr' fun hq => ?_
    exact receive_isSome h.server (h.queued c m (hq ▸ List.mem_cons_self))
  | _ => exact Iff.rfl

theorem inv_initial (config : ℤ → Option (Bool × Layout)) (source : C → ℤ) (numDomains : ℤ) :
    (initial config source numDomains : State C A).Inv config := by
  exact ⟨fun _ => Variables.configured_new config,
    fun _ _ _ hb => absurd hb Variables.not_stores_new, nofun, Variables.configured_new config⟩

/-- Committing the same block twice, within one iteration. -/
def commitTwice : List (Action Unit Unit) :=
  [.alloc () 0 0 (some ⟨fun _ => some (some ()), fun _ => some (some ()), fun _ _ => none⟩),
    .commit () 0 0 0, .commit () 0 0 0, .handle (), .handle ()]

end State
end Damaris.Server.CommitClear
