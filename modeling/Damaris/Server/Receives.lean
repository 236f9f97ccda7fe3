import Mathlib.Tactic
import Damaris.Server.Completeness

/-!
# The receives of headers

A client's channel has one buffer for the headers it receives. How many receives
are outstanding on it follows from the messages handled and the callbacks run.
-/
set_option linter.unusedSectionVars false

namespace Damaris.Iteration

open Damaris.Data Damaris.Msg Damaris.Comm

variable {c : Topology} {m : ℕ} {G : Type*}

namespace Server

variable {sv sv' : Server m G} {i : Fin m}

/-- How many `NEXT_ITERATION` headers of a client the server has handled. -/
def nextBy (sv : Server m G) (i : Fin m) : ℕ := (ends (sv.handled i)).count false

/-- At most one receive is outstanding, and there is none only if the client's
last message was `NEXT_ITERATION` and the callback that goes with it has not run. -/
def OneReceive (sv : Server m G) : Prop :=
  ∀ i, sv.armed i ≤ 1 ∧ (sv.armed i = 0 →
    (sv.handled i).getLast? = some (.endIteration false) ∧ sv.updates.length < sv.nextBy i)

instance (sv : Server m G) : Decidable sv.OneReceive :=
  have (i : Fin m) : Decidable ((sv.handled i).getLast? = some (.endIteration false)) :=
    match (sv.handled i).getLast? with
    | some (.endIteration false) => .isTrue rfl
    | none | some .connect | some .stop | some (.endIteration true) | some (.event _ _)
    | some (.write _) | some (.commit _) | some (.clear _) => .isFalse nofun
  inferInstanceAs (Decidable (∀ _, _ ∧ (_ → _ ∧ _)))

/-- Every handled `NEXT_ITERATION` takes a receive away, and every callback
posts one for each client. -/
structure Balanced (sv : Server m G) : Prop where
  sum : ∀ i, sv.armed i + sv.nextBy i = sv.updates.length + 1
  quiet : sv.Quiet

theorem Balanced.oneReceive (h : sv.Balanced) (hle : ∀ i, sv.armed i ≤ 1) : sv.OneReceive := by
  intro i
  refine ⟨hle i, fun h0 => ⟨h.quiet i h0, ?_⟩⟩
  have := h.sum i
  omega

theorem Counts.nextBy {op : Sent G} {one : ℕ} (h : sv.Counts i op sv' one) :
    sv'.nextBy i = sv.nextBy i + (ends [op]).count false := by
  rw [Server.nextBy, h.handled, Function.update_self, ends_append, List.count_append, Server.nextBy]

theorem onHeader_balanced {source : ℤ} {gc sync : Bool} {op : Sent G} (hb : sv.Balanced)
    (hle : ∀ j, sv.armed j ≤ 1) (harmed : sv.armed i ≠ 0)
    (h : (sv.complete i).onHeader source i gc op = some (sv', sync)) :
    sv'.Balanced ∧ ∀ j, sv'.armed j ≤ 1 := by
  obtain ⟨one, hcounts, hone, hquiet⟩ := onHeader_counts h
  have hself : sv'.armed i = one := by
    have := hle i
    rw [hcounts.armed, Function.update_self]
    omega
  have hother : ∀ j, j ≠ i → sv'.armed j = sv.armed j ∧ sv'.nextBy j = sv.nextBy j := by
    intro j hj
    refine ⟨by rw [hcounts.armed, Function.update_of_ne hj], ?_⟩
    rw [nextBy, hcounts.handled, Function.update_of_ne hj, nextBy]
  refine ⟨⟨fun j => ?_, hcounts.quiet hb.quiet hquiet⟩, fun j => ?_⟩
  · rw [hcounts.updates]
    by_cases hj : j = i
    · subst hj
      have hsum := hb.sum j
      have hone' := hle j
      rw [hself, hcounts.nextBy]
      omega
    · rw [(hother j hj).1, (hother j hj).2]
      exact hb.sum j
  · by_cases hj : j = i
    · subst hj
      omega
    · rw [(hother j hj).1]
      exact hle j

/-- The callback posts a receive for every client, so it must find none. -/
theorem endOfIterationCallback_balanced (hb : sv.Balanced) (gc : Bool) :
    (sv.endOfIterationCallback gc).Balanced ∧
      ((∀ j, (sv.endOfIterationCallback gc).armed j ≤ 1) ↔
        ∀ j, sv.nextBy j = sv.updates.length + 1) := by
  refine ⟨⟨fun j => ?_, fun j hj => absurd hj (Nat.succ_ne_zero _)⟩, forall_congr' fun j => ?_⟩
  · have hsum := hb.sum j
    show sv.armed j + 1 + sv.nextBy j = (sv.updates ++ [_]).length + 1
    rw [List.length_append, List.length_singleton]
    omega
  · have hsum := hb.sum j
    show sv.armed j + 1 ≤ 1 ↔ _
    omega

end Server

namespace State

variable {s s' : State c m G}

/-- The callback of `Sync` runs on a server only when, since the last time, it
has handled a `NEXT_ITERATION` of each of its clients. -/
def Answered (s : State c m G) : Action c m G → Prop
  | .deliver p message source _ => ∀ sync, (s.servers p).stopped = false →
      s.sync.deliver p (fun _ tag => tag = ITERATION_SYNC) message source = some sync →
      (sync.ran p).count ITERATION_SYNC ≠ (s.sync.ran p).count ITERATION_SYNC →
      ∀ i, (s.servers p).nextBy i = (s.servers p).updates.length + 1
  | _ => True

def OneReceive (s : State c m G) : Prop := ∀ p, (s.servers p).OneReceive

instance (s : State c m G) : Decidable s.OneReceive :=
  inferInstanceAs (Decidable (∀ _, Server.OneReceive _))

theorem balanced_step {a : Action c m G}
    (h : ∀ p, (s.servers p).Balanced ∧ ∀ i, (s.servers p).armed i ≤ 1) (hg : s.Answered a)
    (hs : s.step a = some s') (p : c.Rank) :
    (s'.servers p).Balanced ∧ ∀ i, (s'.servers p).armed i ≤ 1 := by
  rcases servers_step hs p with hsame | ⟨i, gc, op, rest, sync, rfl, -, harmed, hx⟩ |
    ⟨message, source, gc, sync, rfl, hstopped, hsync, hran, hsv⟩
  · rw [hsame]
    exact h p
  · exact Server.onHeader_balanced (h p).1 (h p).2 harmed hx
  · obtain ⟨hb, hle⟩ := Server.endOfIterationCallback_balanced (h p).1 gc
    rw [hsv]
    exact ⟨hb, hle.mpr (hg sync hstopped hsync hran)⟩

/-- A step after which there is one receive at most was one of this kind. -/
theorem answered_of_oneReceive {a : Action c m G} (h : ∀ p, (s.servers p).Balanced)
    (hone : ∀ s', s.step a = some s' → s'.OneReceive) : s.Answered a := by
  cases a with
  | deliver p message source gc =>
    intro sync hstopped hsync hran
    have hstep : s.step (.deliver p message source gc) = some { s with
        sync := sync
        servers := Function.update s.servers p ((s.servers p).endOfIterationCallback gc) } := by
      simp [step, hstopped, hsync, hran]
    have hp := hone _ hstep p
    simp only [Function.update_self] at hp
    exact (Server.endOfIterationCallback_balanced (h p) gc).2.mp fun i => (hp i).1
  | _ => trivial

/-- Where no client is counted twice, the barrier lets a callback run only after
all clients have ended the iteration. -/
theorem Inv.answered (h : s.Inv) (a : Action c m G) : s.Answered a := by
  cases a with
  | deliver p message source gc =>
    intro sync _ hsync hran i
    obtain ⟨hlen, harmed⟩ : (s.servers p).updates.length + 1 =
        s.rounds (s.servers p).lastIteration ∧
          ∀ i, (s.servers p).armed i = 0 ∧ (s.servers p).endedBy i = (s.servers p).lastIteration :=
      (h.listening p).resolve_left fun hl => absurd hl.1 (h.pending hsync hran).ne
    rw [Server.nextBy, (h.agreed.handled p i).2, (harmed i).2, hlen, rounds, List.count,
      List.countP_map]
    refine List.countP_congr fun k _ => ?_
    cases hk : s.failed k <;> simp [hk]
  | _ => trivial

theorem balanced_initial (config : ℤ → Option (Bool × Layout)) (source : Peer c m ↪ ℤ)
    (numDomains : ℤ) (p : c.Rank) :
    ((initial config source numDomains : State c m G).servers p).Balanced ∧
      ∀ i, ((initial config source numDomains : State c m G).servers p).armed i ≤ 1 :=
  ⟨⟨fun _ => rfl, fun _ h => absurd h one_ne_zero⟩, fun _ => le_rfl⟩

/-- Each channel has one receive at most, in every state of a run, exactly when
every callback finds all clients waiting for it. No client being counted twice
for one iteration is enough for that. -/
theorem oneReceive_iff_answered (config : ℤ → Option (Bool × Layout)) (source : Peer c m ↪ ℤ)
    (numDomains : ℤ) (as : List (Action c m G)) :
    (StepSystem.Always step OneReceive (initial config source numDomains) as ↔
        StepSystem.Guarded step Answered (initial config source numDomains) as) ∧
      (StepSystem.Guarded step Together (initial config source numDomains) as →
        StepSystem.Guarded step Answered (initial config source numDomains) as) := by
  constructor
  · refine StepSystem.always_iff_guarded
      (I := fun s => ∀ p, (s.servers p).Balanced ∧ ∀ i, (s.servers p).armed i ≤ 1)
      (fun _ _ _ h hg hs p => balanced_step h hg hs p)
      (fun _ h p => (h p).1.oneReceive (h p).2)
      (fun _ _ h hone => answered_of_oneReceive (fun p => (h p).1) hone)
      (balanced_initial config source numDomains)
  · exact StepSystem.Guarded.imp (fun _ _ _ hinv hg hs => hinv.step hg hs)
      (fun _ a hinv _ => hinv.answered a) (inv_initial config source numDomains)

/-- After the early end the wave of the next iteration finds the second client
listened to. -/
theorem two_receives : ¬ ∀ (m : ℕ) (source : Peer SyncState.alone m ↪ ℤ)
    (as : List (Action SyncState.alone m Unit)),
    StepSystem.Always step OneReceive (initial Variables.oneVariable source 1) as := by
  intro hall
  exact absurd (hall 2 rank (earlyEnd ++ [.deliver only .SYNC_WAVE only false])) (by decide)

end State
end Damaris.Iteration
