import Mathlib.Tactic
import Damaris.Lib.StepSystem

/-!
# Programs that broadcast from one rank

The ranks of a group each run a program that takes part in one broadcast after the other and then
ends. Rank 0 is the root of all of them: it hands its payload to every other rank and goes on,
another rank waits for the next payload of the root and must make the same call. The ranks move in
any order. All of them end with the same calls and the same result exactly if the programs
agree call by call.
-/
namespace BcastProgram

variable {C M R : Type*}

/-- A program ends with a result, or makes a call with a payload of its own, which counts on the
root only, and goes on with the payload of the root. -/
inductive Program (C M R : Type*)
  | done (result : R)
  | bcast (call : C) (own : M) (k : M → Program C M R)

structure State (C M R : Type*) where
  ranks : ℕ → Program C M R
  /-- What the root has handed to a rank, and the rank has not taken. -/
  queues : ℕ → List (C × M)
  calls : ℕ → List C

/-- The next step of a rank. A rank that waits, or whose call is not the one of the root, has
none. -/
def step [DecidableEq C] (size : ℕ) (s : State C M R) (r : ℕ) : Option (State C M R) :=
  if r < size then
    match s.ranks r with
    | .done _ => none
    | .bcast call own k =>
      if r = 0 then some {
        ranks := Function.update s.ranks 0 (k own)
        queues := fun q => s.queues q ++ [(call, own)]
        calls := Function.update s.calls 0 (s.calls 0 ++ [call]) }
      else
        match s.queues r with
        | [] => none
        | (c, m) :: rest =>
          if c = call then some {
            ranks := Function.update s.ranks r (k m)
            queues := Function.update s.queues r rest
            calls := Function.update s.calls r (s.calls r ++ [call]) }
          else none
  else none

def initial (root rank : Program C M R) : State C M R where
  ranks := fun r => if r = 0 then root else rank
  queues := fun _ => []
  calls := fun _ => []

/-- However the ranks move, they stop, and have then made the same calls and ended with the same
good result. -/
structure Settles [DecidableEq C] (root rank : Program C M R) (size : ℕ) (Good : R → Prop) :
    Prop where
  ends : ∃ bound, ∀ rs s, StepSystem.run (step size) (initial root rank) rs = some s →
    rs.length ≤ bound
  final : ∀ rs s, StepSystem.run (step size) (initial root rank) rs = some s →
    (∀ r, step size s r = none) →
    ∃ calls res, Good res ∧ ∀ r < size, s.ranks r = .done res ∧ s.calls r = calls

/-- The programs make the same calls, with the payloads of the first, up to the same result. -/
def Agrees : Program C M R → Program C M R → Prop
  | .done a, .done b => a = b
  | .bcast c own k, .bcast c' _ k' => c = c' ∧ Agrees (k own) (k' own)
  | .done _, .bcast _ _ _ => False
  | .bcast _ _ _, .done _ => False

/-- What a program ends with on the root. -/
def Program.result : Program C M R → R
  | .done a => a
  | .bcast _ own k => (k own).result

/-! ## Following the root -/

/-- What a program has become after these broadcasts. -/
inductive Follows : Program C M R → List (C × M) → Program C M R → Prop
  | nil (p : Program C M R) : Follows p [] p
  | cons {c : C} {own m : M} {k : M → Program C M R} {ms : List (C × M)} {p : Program C M R}
      (h : Follows (k m) ms p) : Follows (.bcast c own k) ((c, m) :: ms) p

/-- What the root has become after it has sent these. -/
inductive Sends : Program C M R → List (C × M) → Program C M R → Prop
  | nil (p : Program C M R) : Sends p [] p
  | cons {c : C} {own : M} {k : M → Program C M R} {ms : List (C × M)} {p : Program C M R}
      (h : Sends (k own) ms p) : Sends (.bcast c own k) ((c, own) :: ms) p

variable {p q root rank : Program C M R} {ms ms' : List (C × M)}

theorem Follows.concat {c : C} {own m : M} {k : M → Program C M R}
    (h : Follows p ms (.bcast c own k)) : Follows p (ms ++ [(c, m)]) (k m) := by
  generalize hq : Program.bcast c own k = q at h
  induction h with
  | nil p =>
    subst hq
    exact .cons (.nil _)
  | cons _ ih => exact .cons (ih hq)

theorem Sends.concat {c : C} {own : M} {k : M → Program C M R}
    (h : Sends p ms (.bcast c own k)) : Sends p (ms ++ [(c, own)]) (k own) := by
  generalize hq : Program.bcast c own k = q at h
  induction h with
  | nil p =>
    subst hq
    exact .cons (.nil _)
  | cons _ ih => exact .cons (ih hq)

theorem Sends.result_eq (h : Sends p ms q) : p.result = q.result := by
  induction h with
  | nil p => rfl
  | cons _ ih => exact ih

/-- A rank that has followed the root for a while still agrees with what the root was then. -/
theorem Agrees.follows {res : R} (h : Agrees root rank) (hs : Sends root (ms ++ ms') (.done res))
    (hf : Follows rank ms p) : ∃ q, Agrees q p ∧ Sends q ms' (.done res) := by
  induction hf generalizing root with
  | nil p => exact ⟨root, h, hs⟩
  | cons _ ih =>
    cases hs with
    | cons hs' =>
      obtain ⟨-, hagrees⟩ := h
      exact ih hagrees hs'

/-- Programs that end after the same broadcasts agree. -/
theorem Follows.agrees {res : R} (hf : Follows rank ms (.done res))
    (hs : Sends root ms (.done res)) : Agrees root rank := by
  induction ms generalizing root rank with
  | nil =>
    cases hf
    cases hs
    rfl
  | cons m ms ih =>
    cases hf with
    | cons hf' =>
      cases hs with
      | cons hs' => exact ⟨rfl, ih hf' hs'⟩

/-- The number of broadcasts of the root. -/
def Program.rounds : Program C M R → ℕ
  | .done _ => 0
  | .bcast _ own k => (k own).rounds + 1

theorem Sends.length (h : Sends p ms q) : ms.length + q.rounds = p.rounds := by
  induction h with
  | nil p => exact Nat.zero_add _
  | cons _ ih =>
    rw [List.length_cons, Program.rounds, ← ih]
    omega

/-! ## Runs -/

section Runs

variable {size : ℕ} {s s' : State C M R} {r : ℕ}

/-- What the step of a rank does. -/
inductive Steps (s : State C M R) : ℕ → State C M R → Prop
  | root {c : C} {own : M} {k : M → Program C M R} (hp : s.ranks 0 = .bcast c own k) :
      Steps s 0
        { ranks := Function.update s.ranks 0 (k own)
          queues := fun q => s.queues q ++ [(c, own)]
          calls := Function.update s.calls 0 (s.calls 0 ++ [c]) }
  | rank {r : ℕ} {c : C} {own m : M} {k : M → Program C M R} {rest : List (C × M)} (hr : r ≠ 0)
      (hp : s.ranks r = .bcast c own k) (hq : s.queues r = (c, m) :: rest) :
      Steps s r
        { ranks := Function.update s.ranks r (k m)
          queues := Function.update s.queues r rest
          calls := Function.update s.calls r (s.calls r ++ [c]) }

/-- The root has sent the same to all, every other rank has taken a first part of it, and the calls
are those of what was sent or taken. -/
structure Inv (root rank : Program C M R) (s : State C M R) (sent : List (C × M)) : Prop where
  sends : Sends root sent (s.ranks 0)
  calls : s.calls 0 = sent.map Prod.fst
  ranks : ∀ r, r ≠ 0 → ∃ taken, taken ++ s.queues r = sent ∧ Follows rank taken (s.ranks r) ∧
    s.calls r = taken.map Prod.fst

theorem inv_initial (root rank : Program C M R) : Inv root rank (initial root rank) [] where
  sends := .nil _
  calls := rfl
  ranks := by
    intro r hr
    have hrank : (initial root rank).ranks r = rank := if_neg hr
    exact ⟨[], rfl, by rw [hrank]; exact .nil _, rfl⟩

theorem Inv.steps {sent : List (C × M)} (h : Inv root rank s sent) (hs : Steps s r s') :
    ∃ sent', Inv root rank s' sent' := by
  cases hs with
  | @root c own k hp =>
    refine ⟨sent ++ [(c, own)], ?_, ?_, ?_⟩
    · dsimp only
      rw [Function.update_self]
      exact (hp ▸ h.sends).concat
    · dsimp only
      rw [Function.update_self, h.calls, List.map_append]
      rfl
    · intro q hq
      obtain ⟨taken, hsent, hfollows, hcalls⟩ := h.ranks q hq
      dsimp only
      rw [Function.update_of_ne hq, Function.update_of_ne hq]
      exact ⟨taken, by rw [← List.append_assoc, hsent], hfollows, hcalls⟩
  | @rank _ c own m k rest hr hp hqueue =>
    refine ⟨sent, ?_, ?_, ?_⟩
    · dsimp only
      rw [Function.update_of_ne hr.symm]
      exact h.sends
    · dsimp only
      rw [Function.update_of_ne hr.symm]
      exact h.calls
    · intro q hq
      obtain ⟨taken, hsent, hfollows, hcalls⟩ := h.ranks q hq
      dsimp only
      by_cases hqr : q = r
      · subst hqr
        rw [Function.update_self, Function.update_self, Function.update_self]
        refine ⟨taken ++ [(c, m)], ?_, (hp ▸ hfollows).concat, ?_⟩
        · rw [List.append_assoc, List.singleton_append, ← hqueue, hsent]
        · rw [hcalls, List.map_append]
          rfl
      · rw [Function.update_of_ne hqr, Function.update_of_ne hqr, Function.update_of_ne hqr]
        exact ⟨taken, hsent, hfollows, hcalls⟩

theorem Inv.length_calls_le {sent : List (C × M)} (h : Inv root rank s sent) (r : ℕ) :
    (s.calls r).length ≤ root.rounds := by
  have hsent := h.sends.length
  by_cases hr : r = 0
  · rw [hr, h.calls, List.length_map]
    omega
  · obtain ⟨taken, hqueue, -, hcalls⟩ := h.ranks r hr
    have hlen := congrArg List.length hqueue
    rw [List.length_append] at hlen
    rw [hcalls, List.length_map]
    omega

/-- A step makes one call, of its rank. -/
theorem Steps.length_calls (h : Steps s r s') (q : ℕ) :
    (s'.calls q).length = (s.calls q).length + if q = r then 1 else 0 := by
  have hupdate : ∀ c, (Function.update s.calls r (s.calls r ++ [c]) q).length =
      (s.calls q).length + if q = r then 1 else 0 := by
    intro c
    rw [Function.update_apply]
    split_ifs with hq
    · rw [hq, List.length_append, List.length_singleton]
    · rfl
  cases h with
  | root hp => exact hupdate _
  | rank hr hp hq => exact hupdate _

/-- The calls that are left to make. -/
def remaining (root : Program C M R) (size : ℕ) (s : State C M R) : ℕ :=
  ∑ r ∈ Finset.range size, (root.rounds - (s.calls r).length)

variable [DecidableEq C]

theorem step_cases (h : step size s r = some s') : r < size ∧ Steps s r s' := by
  unfold step at h
  by_cases hr : r < size
  · rw [if_pos hr] at h
    refine ⟨hr, ?_⟩
    cases hp : s.ranks r with
    | done res =>
      rw [hp] at h
      cases h
    | bcast c own k =>
      rw [hp] at h
      dsimp only at h
      by_cases hroot : r = 0
      · subst hroot
        rw [if_pos rfl] at h
        cases h
        exact .root hp
      · rw [if_neg hroot] at h
        cases hq : s.queues r with
        | nil =>
          rw [hq] at h
          cases h
        | cons head rest =>
          obtain ⟨c', m⟩ := head
          rw [hq] at h
          dsimp only at h
          by_cases hc : c' = c
          · subst hc
            rw [if_pos rfl] at h
            cases h
            exact .rank hroot hp hq
          · rw [if_neg hc] at h
            cases h
  · rw [if_neg hr] at h
    cases h

theorem Inv.step {sent : List (C × M)} (h : Inv root rank s sent)
    (hs : BcastProgram.step size s r = some s') : ∃ sent', Inv root rank s' sent' :=
  h.steps (step_cases hs).2

theorem exists_inv {rs : List ℕ}
    (hr : StepSystem.run (step size) (initial root rank) rs = some s) :
    ∃ sent, Inv root rank s sent := by
  refine StepSystem.run_invariant (I := fun s => ∃ sent, Inv root rank s sent) ?_
    ⟨[], inv_initial root rank⟩ hr
  rintro s r s' ⟨sent, h⟩ hs
  exact h.step hs

theorem Inv.remaining_lt {sent : List (C × M)} (h : Inv root rank s sent)
    (hs : BcastProgram.step size s r = some s') : remaining root size s' < remaining root size s := by
  obtain ⟨hr, hsteps⟩ := step_cases hs
  obtain ⟨sent', h'⟩ := h.steps hsteps
  refine Finset.sum_lt_sum (fun q _ => ?_) ⟨r, Finset.mem_range.mpr hr, ?_⟩
  · rw [hsteps.length_calls q]
    omega
  · have hle := h'.length_calls_le r
    rw [hsteps.length_calls r, if_pos rfl] at hle ⊢
    omega

theorem length_le_remaining {rs : List ℕ} {sent : List (C × M)} (h : Inv root rank s sent)
    (hr : StepSystem.run (step size) s rs = some s') : rs.length ≤ remaining root size s := by
  induction rs generalizing s sent with
  | nil => exact Nat.zero_le _
  | cons r rs ih =>
    obtain ⟨s₁, hs, hrest⟩ := StepSystem.run_cons_eq_some.mp hr
    obtain ⟨sent₁, h₁⟩ := h.step hs
    have hle := ih h₁ hrest
    have hlt := h.remaining_lt hs
    rw [List.length_cons]
    omega

/-- The ranks can always move on until none can. -/
theorem exists_final {sent : List (C × M)} (h : Inv root rank s sent) :
    ∃ rs t, StepSystem.run (step size) s rs = some t ∧ ∀ r, step size t r = none := by
  induction hn : remaining root size s using Nat.strong_induction_on generalizing s sent with
  | _ n ih =>
    by_cases hfinal : ∀ r, step size s r = none
    · exact ⟨[], s, rfl, hfinal⟩
    · obtain ⟨r, hr⟩ := not_forall.mp hfinal
      obtain ⟨s₁, hs⟩ := Option.ne_none_iff_exists'.mp hr
      obtain ⟨sent₁, h₁⟩ := h.step hs
      obtain ⟨rs, t, hrun, ht⟩ := ih _ (hn ▸ h.remaining_lt hs) h₁ rfl
      exact ⟨r :: rs, t, StepSystem.run_cons_eq_some.mpr ⟨s₁, hs, hrun⟩, ht⟩

/-- The root stops only at its end. -/
theorem Inv.root_done {sent : List (C × M)} (h : Inv root rank s sent) (hsize : 0 < size)
    (hfinal : BcastProgram.step size s 0 = none) : s.ranks 0 = .done root.result := by
  have hresult := h.sends.result_eq
  cases hp : s.ranks 0 with
  | done res =>
    rw [hp] at hresult
    rw [hresult]
    rfl
  | bcast c own k =>
    rw [BcastProgram.step, if_pos hsize, hp] at hfinal
    cases hfinal

/-- A rank that agrees with the root stops only at its end. -/
theorem Inv.rank_done {sent : List (C × M)} (h : Inv root rank s sent)
    (hroot : s.ranks 0 = .done root.result) (hagrees : Agrees root rank) (hr : r ≠ 0)
    (hsize : r < size) (hfinal : BcastProgram.step size s r = none) :
    s.ranks r = .done root.result ∧ s.calls r = sent.map Prod.fst := by
  obtain ⟨taken, hsent, hfollows, hcalls⟩ := h.ranks r hr
  obtain ⟨q, hq, hsends⟩ := hagrees.follows (hsent ▸ hroot ▸ h.sends) hfollows
  rw [BcastProgram.step, if_pos hsize] at hfinal
  cases hp : s.ranks r with
  | done res =>
    rw [hp] at hq
    cases q with
    | done a =>
      obtain rfl : a = res := hq
      generalize hqueue : s.queues r = queue at hsends hsent
      cases hsends
      rw [List.append_nil] at hsent
      exact ⟨rfl, hsent ▸ hcalls⟩
    | bcast c own k => exact hq.elim
  | bcast c own k =>
    rw [hp] at hq hfinal
    cases q with
    | done a => exact hq.elim
    | bcast c' own' k' =>
      obtain ⟨rfl, -⟩ := hq
      generalize hqueue : s.queues r = queue at hsends hfinal
      cases hsends with
      | cons hsends' =>
        dsimp only at hfinal
        rw [if_neg hr, if_pos rfl] at hfinal
        cases hfinal

/-- The ranks settle exactly if their programs agree, where there is another rank than the root,
and the result of the root is good. -/
theorem settles_iff (root rank : Program C M R) (others : ℕ) {Good : R → Prop} :
    Settles root rank (others + 1) Good ↔
      Good root.result ∧ (others = 0 ∨ Agrees root rank) := by
  constructor
  · rintro ⟨-, h⟩
    have hexists : ∃ rs t, StepSystem.run (step (others + 1)) (initial root rank) rs = some t ∧
        ∀ r, step (others + 1) t r = none := exists_final (inv_initial root rank)
    obtain ⟨rs, s, hrun, hfinal⟩ := hexists
    obtain ⟨calls, res, hgood, hall⟩ := h rs s hrun hfinal
    obtain ⟨sent, hinv⟩ := exists_inv hrun
    obtain ⟨hdone, hcalls⟩ := hall 0 (Nat.succ_pos _)
    have hsends := hinv.sends
    rw [hdone] at hsends
    have hresult : root.result = res := hsends.result_eq
    refine ⟨hresult ▸ hgood, ?_⟩
    obtain hzero | hpos := Nat.eq_zero_or_pos others
    · exact .inl hzero
    · obtain ⟨hdone₁, hcalls₁⟩ := hall 1 (by omega)
      obtain ⟨taken, hsent, hfollows, htaken⟩ := hinv.ranks 1 one_ne_zero
      have hlen : taken.length = sent.length := by
        have hmap := htaken.symm.trans (hcalls₁.trans (hcalls.symm.trans hinv.calls))
        simpa using congrArg List.length hmap
      have hprefix : taken <+: sent := ⟨s.queues 1, hsent⟩
      have heq : taken = sent := hprefix.eq_of_length hlen
      rw [heq, hdone₁] at hfollows
      exact .inr (hfollows.agrees hsends)
  · rintro ⟨hgood, hagrees⟩
    refine ⟨⟨_, fun rs s hrun => length_le_remaining (inv_initial root rank) hrun⟩, ?_⟩
    intro rs s hrun hfinal
    obtain ⟨sent, hinv⟩ := exists_inv hrun
    have hroot := hinv.root_done (Nat.succ_pos others) (hfinal 0)
    refine ⟨sent.map Prod.fst, root.result, hgood, fun r hr => ?_⟩
    by_cases hzero : r = 0
    · rw [hzero]
      exact ⟨hroot, hinv.calls⟩
    · exact hinv.rank_done hroot (hagrees.resolve_left (by omega)) hzero hr (hfinal r)

end Runs

end BcastProgram
