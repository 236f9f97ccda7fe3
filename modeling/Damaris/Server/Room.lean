import Mathlib.Tactic
import Damaris.Server.Memory

/-!
# Room for one iteration

What clients wait for while they wait for memory: servers handle messages and synchronise, and clients
return from the end of an iteration. All this comes to an end, and then the memory holds the iteration
that the waiting client is in, and nothing else. It has its room by then, or never.
-/
set_option linter.unusedSectionVars false

namespace Damaris.Iteration

open Damaris.Data Damaris.Msg Damaris.Comm

variable {c : Topology} {m : ℕ} {G : Type*} {config : ℤ → Option (Bool × Layout)}

/-- What happens without a further call of a client: servers work, and clients return from an
`Allreduce` that all have entered. -/
def Action.Onward : Action c m G → Prop
  | .handle _ _ _ | .deliver _ _ _ _ | .leave _ => True
  | .call _ _ | .enter _ => False

instance : (a : Action c m G) → Decidable a.Onward
  | .handle _ _ _ | .deliver _ _ _ _ | .leave _ => .isTrue trivial
  | .call _ _ | .enter _ => .isFalse id

/-- The action is one of the client. -/
def Action.By (x : Peer c m) : Action c m G → Prop
  | .call y _ | .enter y | .leave y => y = x
  | _ => False

instance (x : Peer c m) : (a : Action c m G) → Decidable (a.By x)
  | .call y _ | .enter y | .leave y => inferInstanceAs (Decidable (y = x))
  | .handle _ _ _ | .deliver _ _ _ _ => .isFalse id

namespace State

variable {s s' : State c m G} {source : Peer c m ↪ ℤ}

def Settled (s : State c m G) : Prop := ∀ a : Action c m G, a.Onward → s.step a = none

/-- A return from an `Allreduce` sends one message, which is worth three steps. -/
def remaining (s : State c m G) : ℕ := s.work + 4 * ∑ x, ((s.votes x).length - s.left x)

theorem Settled.atRest (h : s.Settled) : s.AtRest := by
  intro a ha
  refine h a ?_
  cases a with
  | handle p i gc => trivial
  | deliver p message src gc => trivial
  | _ => exact False.elim ha

theorem votes_of_byServer {a : Action c m G} (ha : a.ByServer) (hs : s.step a = some s') :
    s'.votes = s.votes ∧ s'.left = s.left := by
  cases a with
  | handle p i gc =>
    cases hq : s.queue (p, i) with
    | nil => simp [State.step, hq] at hs
    | cons op rest =>
      simp only [State.step, hq] at hs
      split_ifs at hs
      obtain ⟨x, -, rfl⟩ := Option.map_eq_some_iff.mp hs
      exact ⟨rfl, rfl⟩
  | deliver p message src gc =>
    simp only [State.step] at hs
    split_ifs at hs
    obtain ⟨sync, -, hs'⟩ := Option.map_eq_some_iff.mp hs
    split_ifs at hs' <;> subst hs' <;> exact ⟨rfl, rfl⟩
  | _ => exact False.elim ha

theorem remaining_step {a : Action c m G} (hpaced : s.Paced) (hg : s.Together a) (ha : a.Onward)
    (hs : s.step a = some s') : s'.remaining < s.remaining := by
  have hserver : a.ByServer → s'.remaining < s.remaining := by
    intro hby
    obtain ⟨hvotes, hleft⟩ := votes_of_byServer hby hs
    rw [remaining, remaining, hvotes, hleft]
    exact Nat.add_lt_add_right ((hpaced.step hg hs).2 hby) _
  cases a with
  | call x req => exact False.elim ha
  | enter x => exact False.elim ha
  | leave x =>
    simp only [State.step] at hs
    split_ifs at hs with hvotes
    obtain rfl := Option.some.inj hs
    have hqueue := sum_queue s.queue x (s.queue x ++ [.endIteration (s.failed (s.left x))])
    rw [List.length_append, List.length_singleton] at hqueue
    have hlt : ∑ y, ((s.votes y).length - Function.update s.left x (s.left x + 1) y) <
        ∑ y, ((s.votes y).length - s.left y) := by
      refine Finset.sum_lt_sum (fun y _ => ?_) ⟨x, Finset.mem_univ x, ?_⟩
      · by_cases hy : y = x
        · subst hy
          rw [Function.update_self]
          omega
        · rw [Function.update_of_ne hy]
      · rw [Function.update_self]
        omega
    simp only [remaining, work]
    omega
  | handle p i gc => exact hserver trivial
  | deliver p message src gc => exact hserver trivial

/-! ## At rest -/

/-- While a client is in an iteration, nobody leaves it; and all have come to it when nothing more
happens by itself. -/
theorem Settled.left_eq (hset : s.Settled) (hagreed : s.Agreed) (hledger : s.Ledger config)
    {x : Peer c m} (hx : (s.votes x).length = s.left x) (y : Peer c m) : s.left y = s.left x := by
  have hle : s.left y ≤ s.left x := by
    by_contra hlt
    have := hagreed.decided y (s.left x) (not_le.mp hlt) x
    omega
  by_contra hne
  have hdecided := hagreed.decided x (s.left y) (by omega)
  have hvotes : (s.votes y).length = s.left y + 1 := by
    have := hledger.within y
    have := hdecided y
    omega
  have hnone := hset (.leave y) trivial
  simp only [State.step] at hnone
  rw [if_pos ⟨hvotes, hdecided⟩] at hnone
  exact absurd hnone (Option.some_ne_none _)

theorem Ledger.defined (h : s.Ledger config) : s.Defined := by
  intro p i op rest hq
  refine receive_isSome (h.plain (p, i) op ?_)
  rw [sent, hq]
  simp

/-- All that is in memory at rest is of the iteration that the waiting client is in. -/
theorem Settled.processed {numDomains : ℤ} (hset : s.Settled) (h : s.Steady config source numDomains)
    (hm : 0 < m) {x : Peer c m} (hx : (s.votes x).length = s.left x) (p : c.Rank) :
    (s.servers p).updates.length = s.left x ∧ ∀ i, s.queue (p, i) = [] :=
  hset.atRest.processed h.ledger.defined h.closing h.cut h.paced hm
    (hset.left_eq h.cut.base.agreed h.ledger hx) p

/-- The blocks of a variable that a client has written in the iteration it is in. -/
theorem Steady.since_le {numDomains : ℤ} (h : s.Steady config source numDomains) (x : Peer c m)
    (id : ℤ) : since (s.left x) (writes id (s.sent x)) ≤ numDomains.toNat ∧
      ∀ bid, 0 ≤ bid → bid < numDomains → ((s.left x : ℤ), bid) ∉ writes id (s.sent x) →
        since (s.left x) (writes id (s.sent x)) + 1 ≤ numDomains.toNat := by
  have hflags := congrArg List.length (h.cut.base.agreed.flags x)
  rw [List.length_map, List.length_range] at hflags
  have hiteration : ∀ k ∈ (writes id (s.sent x)).filter fun k => (s.left x : ℤ) ≤ k.1,
      k.1 = s.left x := by
    intro k hk
    obtain ⟨hmem, hle⟩ := List.mem_filter.mp hk
    have hearly := (between_of_mem (h.cut.dated x) hmem).2
    have hlate := of_decide_eq_true hle
    rw [hflags] at hearly
    push_cast at hearly
    omega
  have hdomains : ∀ k ∈ (writes id (s.sent x)).filter fun k => (s.left x : ℤ) ≤ k.1,
      0 ≤ k.2 ∧ k.2 < numDomains := by
    intro k hk
    obtain ⟨wr, hwr, -, rfl⟩ := mem_writes.mp (List.mem_filter.mp hk).1
    exact h.bounded.domains x _ hwr
  have hnodup := (h.ledger.once x id).filter fun k => (s.left x : ℤ) ≤ k.1
  rw [since, List.countP_eq_length_filter]
  refine ⟨length_le_numDomains hnodup hiteration hdomains, fun bid hlow hhigh hnot => ?_⟩
  rw [← List.length_cons (a := ((s.left x : ℤ), bid))]
  refine length_le_numDomains (k := s.left x) ?_ ?_ ?_
  · exact List.nodup_cons.mpr ⟨fun hmem => hnot (List.mem_filter.mp hmem).1, hnodup⟩
  · intro k hk
    rcases List.mem_cons.mp hk with rfl | hk
    · rfl
    · exact hiteration k hk
  · intro k hk
    rcases List.mem_cons.mp hk with rfl | hk
    · exact ⟨hlow, hhigh⟩
    · exact hdomains k hk

/-- The memory of one iteration of a server's clients. -/
def iterationMemory (config : ℤ → Option (Bool × Layout)) (ids : Finset ℤ) (m : ℕ) (numDomains : ℤ) : ℕ :=
  ∑ id ∈ ids, blockMemory config id * (m * numDomains.toNat)

theorem Settled.room {numDomains : ℤ} (hset : s.Settled) (h : s.Steady config source numDomains)
    (hm : 0 < m) {x : Peer c m} (hx : (s.votes x).length = s.left x) {ids : Finset ℤ} {id bid : ℤ}
    (hid : id ∈ ids) (hlow : 0 ≤ bid) (hhigh : bid < numDomains)
    (hnot : ((s.clients x).iteration, bid) ∉ writes id (s.sent x)) :
    s.inUse config ids x.1 + blockMemory config id ≤ iterationMemory config ids m numDomains := by
  have hleft := hset.left_eq h.cut.base.agreed h.ledger hx
  have hupdates := (hset.processed h hm hx x.1).1
  rw [h.cut.iterations] at hnot
  have hcount : ∀ id', s.writtenSince (s.left x) x.1 id' + (if id' = id then 1 else 0) ≤
      m * numDomains.toNat := by
    intro id'
    have hone : ∀ i, since (s.left x) (writes id' (s.sent (x.1, i))) +
        (if i = x.2 ∧ id' = id then 1 else 0) ≤ numDomains.toNat := by
      intro i
      obtain ⟨hle, hfresh⟩ := h.since_le (x.1, i) id'
      rw [hleft] at hle hfresh
      split_ifs with hcase
      · obtain ⟨rfl, rfl⟩ := hcase
        exact hfresh bid hlow hhigh hnot
      · exact hle
    calc s.writtenSince (s.left x) x.1 id' + (if id' = id then 1 else 0)
        = ∑ i, (since (s.left x) (writes id' (s.sent (x.1, i))) +
            if i = x.2 ∧ id' = id then 1 else 0) := by
          rw [Finset.sum_add_distrib, writtenSince]
          by_cases heq : id' = id <;> simp [heq]
      _ ≤ ∑ _i : Fin m, numDomains.toNat := Finset.sum_le_sum fun i _ => hone i
      _ = m * numDomains.toNat := by simp
  calc s.inUse config ids x.1 + blockMemory config id
      = ∑ id' ∈ ids, blockMemory config id' *
          (s.writtenSince (s.left x) x.1 id' + if id' = id then 1 else 0) := by
        simp only [h.inUse_eq, hupdates, mul_add, Finset.sum_add_distrib, mul_ite, mul_one, mul_zero,
          Finset.sum_ite_eq', if_pos hid]
    _ ≤ iterationMemory config ids m numDomains :=
        Finset.sum_le_sum fun id' _ => Nat.mul_le_mul_left _ (hcount id')

/-! ## Waiting for ever -/

theorem left_step {a : Action c m G} (hs : s.step a = some s') {x : Peer c m} (ha : ¬ a.By x) :
    s'.left x = s.left x := by
  cases a with
  | leave y =>
    simp only [State.step] at hs
    split_ifs at hs
    obtain rfl := Option.some.inj hs
    exact Function.update_of_ne (fun hxy => ha hxy.symm) _ _
  | call y req =>
    simp only [State.step] at hs
    split_ifs at hs
    obtain rfl := Option.some.inj hs
    rfl
  | enter y =>
    simp only [State.step] at hs
    split_ifs at hs
    obtain rfl := Option.some.inj hs
    rfl
  | handle p i gc => rw [(votes_of_byServer (a := .handle p i gc) trivial hs).2]
  | deliver p message src gc => rw [(votes_of_byServer (a := .deliver p message src gc) trivial hs).2]

theorem updates_step {a : Action c m G} (hs : s.step a = some s') (p : c.Rank) :
    (s.servers p).updates.length ≤ (s'.servers p).updates.length := by
  rcases servers_step hs p with hsame | ⟨i, gc, op, rest, sync, -, -, -, hx⟩ |
    ⟨message, src, gc, sync, -, -, -, -, hcallback⟩
  · rw [hsame]
  · obtain ⟨one, hcounts, -⟩ := Server.onHeader_counts hx
    rw [hcounts.updates]
  · rw [hcallback, Server.endOfIterationCallback, List.length_append]
    exact Nat.le_add_right _ _

theorem sent_le {a : Action c m G} (hs : s.step a = some s') (x : Peer c m) :
    s.sent x <+: s'.sent x := by
  rcases sent_step hs x with ⟨req, -, hsent⟩ | ⟨e, -, hsent⟩ | ⟨-, hsent⟩
  · exact hsent ▸ List.prefix_append _ _
  · exact hsent ▸ List.prefix_append _ _
  · exact hsent ▸ List.prefix_rfl

theorem since_mono {n : ℕ} {id : ℤ} {ops ops' : List (Sent G)} (h : ops <+: ops') :
    since n (writes id ops) ≤ since n (writes id ops') :=
  (h.filterMap _).sublist.countP_le

/-- As long as a client stays in its iteration, its server keeps all that is written in it. -/
theorem Settled.inUse_le {numDomains : ℤ} (hset : s.Settled) (h : s.Steady config source numDomains)
    (htv : ∀ id y, config id = some y → y.1 = true) (hm : 0 < m) {x : Peer c m}
    (hx : (s.votes x).length = s.left x) (ids : Finset ℤ) {cs : List (Action c m G)}
    (hg : StepSystem.Guarded step Writing s cs) (hcs : ∀ a ∈ cs, ¬ a.By x)
    (hr : StepSystem.run step s cs = some s') : s.inUse config ids x.1 ≤ s'.inUse config ids x.1 := by
  have hupdates := (hset.processed h hm hx x.1).1
  obtain ⟨h', hleft, hle, hsent⟩ : s'.Steady config source numDomains ∧ s'.left x = s.left x ∧
      (s.servers x.1).updates.length ≤ (s'.servers x.1).updates.length ∧ ∀ y, s.sent y <+: s'.sent y := by
    refine StepSystem.guarded_invariant (G := fun s a => s.Writing a ∧ ¬ a.By x)
      (I := fun t => t.Steady config source numDomains ∧ t.left x = s.left x ∧
        (s.servers x.1).updates.length ≤ (t.servers x.1).updates.length ∧ ∀ y, s.sent y <+: t.sent y)
      ?_ ⟨h, rfl, le_rfl, fun _ => List.prefix_rfl⟩ (hg.and_of_forall_mem hcs) hr
    intro t a t' ht ha hs
    obtain ⟨hsteady, hleft, hle, hsent⟩ := ht
    exact ⟨hsteady.step htv ha.1 hs, (left_step hs ha.2).trans hleft,
      hle.trans (updates_step hs x.1), fun y => (hsent y).trans (sent_le hs y)⟩
  have hbound : (s'.servers x.1).updates.length ≤ s'.left x := h'.cut.updates_le_left x.1 x.2
  have hsame : (s'.servers x.1).updates.length = s.left x := by omega
  rw [h.inUse_eq, h'.inUse_eq, hupdates, hsame]
  exact Finset.sum_le_sum fun id _ => Nat.mul_le_mul_left _
    (Finset.sum_le_sum fun i _ => since_mono (hsent (x.1, i)))

/-- One client has written its block; the other one waits. -/
def writtenA : List (Action SyncState.alone 2 Unit) :=
  [.call clientA (.write 0 0 (some ⟨fun _ => some (some ()), fun _ => some (some ()), fun _ _ => none⟩))]

/-- With one server, `Settled` on all that it could do. -/
def Two.Settled (s : Two) : Prop :=
  (∀ x, (s.queue x).length = 0) ∧ (∀ x, (s.votes x).length ≠ s.left x + 1) ∧
    ∀ message ∈ [Message.BCAST, .DISPATCH, .SYNC, .SYNC_WAVE], ∀ p src,
      (s.sync.deliver p (fun _ tag => tag = ITERATION_SYNC) message src).isNone

instance (s : Two) : Decidable (Two.Settled s) := inferInstanceAs (Decidable (_ ∧ _ ∧ _))

theorem Two.Settled.settled {s : Two} (h : Two.Settled s) : State.Settled s := by
  obtain ⟨hqueue, hvotes, hsync⟩ := h
  intro a ha
  cases a with
  | handle p i gc =>
    have hempty : s.queue (p, i) = [] := List.eq_nil_of_length_eq_zero (hqueue (p, i))
    simp [State.step, hempty]
  | deliver p message src gc =>
    have hnone := hsync message (by cases message <;> simp) p src
    simp [State.step, Option.isNone_iff_eq_none.mp hnone]
  | leave x => simp [State.step, hvotes x]
  | _ => exact False.elim ha

end State
end Damaris.Iteration
