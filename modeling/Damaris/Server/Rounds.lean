import Mathlib.Tactic
import Damaris.Comm.SyncBarrier
import Damaris.Server.Iteration

/-!
# Rounds of iterations

What the counter of a server, the receives it posts and the synchronisation of
the servers have to do with the iterations that the clients end. All of it holds
as long as a server does not count a client twice for one iteration.
-/
set_option linter.unusedSectionVars false

namespace Damaris.Iteration

open Damaris.Data Damaris.Msg Damaris.Comm

variable {c : Topology} {m : ℕ} {G : Type*}

/-- The ends of iterations among messages, each with its flag. -/
def ends (ops : List (Sent G)) : List Bool :=
  ops.filterMap fun
    | .endIteration e => some e
    | _ => none

@[simp] theorem ends_nil : ends ([] : List (Sent G)) = [] := rfl

@[simp] theorem ends_append (ops ops' : List (Sent G)) : ends (ops ++ ops') = ends ops ++ ends ops' :=
  List.filterMap_append

@[simp] theorem ends_endIteration (e : Bool) : ends [(.endIteration e : Sent G)] = [e] := rfl

theorem ends_singleton {op : Sent G} (h : ∀ e, op ≠ .endIteration e) : ends [op] = [] := by
  cases op with
  | endIteration e => exact absurd rfl (h e)
  | _ => rfl

theorem length_ends_cons (op : Sent G) (ops : List (Sent G)) :
    (ends (op :: ops)).length = (ends [op]).length + (ends ops).length := by
  rw [← List.length_append, ← ends_append]
  rfl

/-- No other call ends an iteration. -/
theorem ends_request (client : Client G) (req : Client.Request G) :
    ends (client.request req).2.toList = [] := by
  cases req with
  | connect => rfl
  | stop => rfl
  | signal bcast id => rfl
  | write id block buffer =>
    simp only [Client.request]
    cases (client.write id block buffer).2.2 <;> rfl
  | alloc id block buffer => rfl
  | commit id block iteration =>
    simp only [Client.request]
    cases (client.commit id block iteration).2.2 <;> rfl
  | clear id block iteration =>
    simp only [Client.request]
    cases (client.clear id block iteration).2.2 <;> rfl
  | setPosition id block p => rfl

namespace Server

variable {sv sv' : Server m G} {i : Fin m}

/-- How many iterations of a client the server has seen the end of. -/
def endedBy (sv : Server m G) (i : Fin m) : ℕ := (ends (sv.handled i)).length

/-- What handling a message does to the counters. `one` is the receive posted at
the end of `OnHeader`, if it is. -/
structure Counts (sv : Server m G) (i : Fin m) (op : Sent G) (sv' : Server m G) (one : ℕ) :
    Prop where
  armed : sv'.armed = Function.update sv.armed i (sv.armed i - 1 + one)
  handled : sv'.handled = Function.update sv.handled i (sv.handled i ++ [op])
  updates : sv'.updates = sv.updates

theorem onStop_eq (sv : Server m G) (i : Fin m) :
    ∃ requests stopped, sv.onStop i = { sv with stopRequests := requests, stopped := stopped } := by
  unfold onStop
  simp only
  split
  · exact ⟨_, _, rfl⟩
  · exact ⟨_, sv.stopped, rfl⟩

/-- A message is of no consequence to the counters, or it is counted, or it is
the last one that the iteration lacks. -/
theorem onHeader_cases {source : ℤ} {gc sync : Bool} {op : Sent G}
    (h : (sv.complete i).onHeader source i gc op = some (sv', sync)) :
    ((∀ e, op ≠ .endIteration e) ∧ sv.Counts i op sv' 1 ∧ sync = false ∧ sv'.locks = sv.locks ∧
        sv'.lastIteration = sv.lastIteration ∧ sv'.errors = sv.errors) ∨
      ∃ e, op = .endIteration e ∧ sv.Counts i op sv' e.toNat ∧
        ((sv.locks + 1 ≠ m ∧ sync = false ∧ sv'.locks = sv.locks + 1 ∧
            sv'.lastIteration = sv.lastIteration ∧ sv'.errors = sv.errors) ∨
          (sv.locks + 1 = m ∧ sync = !e ∧ sv'.locks = 0 ∧
            sv'.lastIteration = sv.lastIteration + 1 ∧
              sv'.errors = sv.errors ++ if e then [(sv.lastIteration : ℤ)] else [])) := by
  obtain ⟨vs, -, hx⟩ := Option.map_eq_some_iff.mp h
  obtain ⟨rfl, rfl⟩ := Prod.mk.inj hx
  have hplain : ∀ sw : Server m G, sw.armed = (sv.complete i).armed →
      (sw.asyncRecv i).armed = Function.update sv.armed i (sv.armed i - 1 + 1) := by
    intro sw hsw
    simp [asyncRecv, hsw, complete]
  cases op with
  | endIteration e =>
    refine .inr ⟨e, rfl, ?_⟩
    by_cases hfull : sv.locks + 1 = m
    · refine ⟨⟨?_, ?_, ?_⟩, .inr ⟨hfull, ?_⟩⟩ <;> cases e <;>
        simp [startNextIteration, complete, asyncRecv, onError, Operation.type, hfull]
    · refine ⟨⟨?_, ?_, ?_⟩, .inl ⟨hfull, ?_⟩⟩ <;> cases e <;>
        simp [startNextIteration, complete, asyncRecv, Operation.type, hfull]
  | stop =>
    obtain ⟨requests, stopped, hstop⟩ := onStop_eq { sv.complete i with
      vars := vs, handled := Function.update sv.handled i (sv.handled i ++ [.stop]) } i
    refine .inl ⟨fun _ => by simp, ⟨?_, ?_, ?_⟩, ?_⟩ <;>
      simp [complete, asyncRecv, Operation.type] at hstop ⊢ <;> simp [hstop]
  | event bcast ev =>
    refine .inl ⟨fun _ => by simp, ?_⟩
    cases bcast <;> exact ⟨⟨hplain _ rfl, rfl, rfl⟩, rfl, rfl, rfl, rfl⟩
  | _ => exact .inl ⟨fun _ => by simp, ⟨hplain _ rfl, rfl, rfl⟩, rfl, rfl, rfl, rfl⟩

/-- What is common to all messages: only `NEXT_ITERATION` takes the receive away. -/
theorem onHeader_counts {source : ℤ} {gc sync : Bool} {op : Sent G}
    (h : (sv.complete i).onHeader source i gc op = some (sv', sync)) :
    ∃ one, sv.Counts i op sv' one ∧ one + (ends [op]).count false = 1 ∧
      (one = 0 → op = .endIteration false) := by
  rcases onHeader_cases h with ⟨hop, hcounts, -⟩ | ⟨e, rfl, hcounts, -⟩
  · exact ⟨1, hcounts, by rw [ends_singleton hop]; rfl, fun h => absurd h one_ne_zero⟩
  · cases e with
    | false => exact ⟨0, hcounts, rfl, fun _ => rfl⟩
    | true => exact ⟨1, hcounts, rfl, fun h => absurd h one_ne_zero⟩

/-- The counter of a server counts the clients that have ended the iteration it
is in; the others have ended the one before. -/
structure Counted (sv : Server m G) : Prop where
  between : ∀ i, sv.endedBy i = sv.lastIteration ∨ sv.endedBy i = sv.lastIteration + 1
  locks : sv.locks =
    (Finset.univ.filter fun i => sv.endedBy i = sv.lastIteration + 1).card
  short : 0 < m → sv.locks < m

/-- The receives of headers. Either all `syncs` calls of `Sync` have had their
callback, and a client is listened to unless it has ended this iteration without
errors; or the last callback is still to come, and no client is listened to. -/
def Listening (sv : Server m G) (failed : Bool) (syncs : ℕ) : Prop :=
  (sv.updates.length = syncs ∧ ∀ i, sv.armed i =
      if sv.endedBy i = sv.lastIteration + 1 ∧ failed = false then 0 else 1) ∨
    (sv.updates.length + 1 = syncs ∧ ∀ i, sv.armed i = 0 ∧ sv.endedBy i = sv.lastIteration)

/-- A client that is not listened to has ended an iteration last. -/
def Quiet (sv : Server m G) : Prop :=
  ∀ i, sv.armed i = 0 → (sv.handled i).getLast? = some (.endIteration false)

/-- The iterations that the server has processed, or cleaned up, are complete. -/
def Logged (sv : Server m G) : Prop :=
  (∀ x ∈ sv.updates, x.1 + 1 ≤ (sv.lastIteration : ℤ)) ∧
    ∀ k ∈ sv.errors, k + 1 ≤ (sv.lastIteration : ℤ)

section Step

variable {op : Sent G} {one : ℕ}

theorem Counts.endedBy_of_ne (h : sv.Counts i op sv' one) {j : Fin m} (hj : j ≠ i) :
    sv'.endedBy j = sv.endedBy j := by
  rw [endedBy, h.handled, Function.update_of_ne hj, endedBy]

theorem Counts.endedBy_self (h : sv.Counts i op sv' one) :
    sv'.endedBy i = sv.endedBy i + (ends [op]).length := by
  rw [endedBy, h.handled, Function.update_self, ends_append, List.length_append, endedBy]

theorem Listening.armed_eq_one {f : Bool} {n : ℕ} (hl : sv.Listening f n) (hi : sv.armed i ≠ 0) :
    sv.updates.length = n ∧ sv.armed i = 1 ∧ ¬ (sv.endedBy i = sv.lastIteration + 1 ∧ f = false) ∧
      ∀ j, sv.armed j = if sv.endedBy j = sv.lastIteration + 1 ∧ f = false then 0 else 1 := by
  rcases hl with ⟨hn, harmed⟩ | ⟨-, harmed⟩
  · have hnot : ¬ (sv.endedBy i = sv.lastIteration + 1 ∧ f = false) := by
      intro h
      rw [harmed i, if_pos h] at hi
      exact hi rfl
    exact ⟨hn, by rw [harmed i, if_neg hnot], hnot, harmed⟩
  · exact absurd (harmed i).1 hi

theorem Counts.quiet (h : sv.Counts i op sv' one) (hq : sv.Quiet)
    (hone : one = 0 → op = .endIteration false) : sv'.Quiet := by
  intro j hj
  by_cases hji : j = i
  · subst hji
    rw [h.armed, Function.update_self] at hj
    rw [h.handled, Function.update_self, List.getLast?_concat, hone (by omega)]
  · rw [h.armed, Function.update_of_ne hji] at hj
    rw [h.handled, Function.update_of_ne hji]
    exact hq j hj

/-- A message that ends no iteration. -/
theorem Counts.plain (h : sv.Counts i op sv' 1) (hc : sv.Counted) {f : Bool} {n : ℕ}
    (hl : sv.Listening f n) (hi : sv.armed i ≠ 0) (hop : ends [op] = [])
    (hlocks : sv'.locks = sv.locks) (hlast : sv'.lastIteration = sv.lastIteration) :
    sv'.Counted ∧ sv'.Listening f n := by
  have hended : ∀ j, sv'.endedBy j = sv.endedBy j := by
    intro j
    by_cases hj : j = i
    · subst hj
      rw [h.endedBy_self, hop, List.length_nil, Nat.add_zero]
    · exact h.endedBy_of_ne hj
  obtain ⟨hn, hone, -, harmed⟩ := hl.armed_eq_one hi
  refine ⟨⟨fun j => ?_, ?_, ?_⟩, .inl ⟨h.updates ▸ hn, fun j => ?_⟩⟩
  · rw [hended, hlast]
    exact hc.between j
  · simp only [hended, hlast, hlocks]
    exact hc.locks
  · rw [hlocks]
    exact hc.short
  · rw [hended, hlast, ← harmed j, h.armed]
    by_cases hj : j = i
    · subst hj
      rw [Function.update_self, hone]
    · rw [Function.update_of_ne hj]

/-- Counting a client that has not been counted for this iteration. -/
theorem Counts.card (h : sv.Counts i op sv' one) (hop : (ends [op]).length = 1)
    (hi : sv.endedBy i = sv.lastIteration) :
    (Finset.univ.filter fun j => sv'.endedBy j = sv.lastIteration + 1).card =
      (Finset.univ.filter fun j => sv.endedBy j = sv.lastIteration + 1).card + 1 := by
  have hnot : i ∉ Finset.univ.filter fun j => sv.endedBy j = sv.lastIteration + 1 := by
    rw [Finset.mem_filter, hi]
    rintro ⟨-, h⟩
    omega
  rw [← Finset.card_insert_of_notMem hnot]
  congr 1
  ext j
  rw [Finset.mem_insert, Finset.mem_filter, Finset.mem_filter]
  by_cases hj : j = i
  · subst hj
    simp [h.endedBy_self, hop, hi]
  · simp [h.endedBy_of_ne hj, hj]

/-- The end of an iteration, with other clients still missing. -/
theorem Counts.counted {e : Bool} (h : sv.Counts i (.endIteration e) sv' e.toNat) (hc : sv.Counted)
    {n : ℕ} (hl : sv.Listening e n) (hi : sv.armed i ≠ 0) (hended : sv.endedBy i = sv.lastIteration)
    (hm : sv.locks + 1 ≠ m) (hlocks : sv'.locks = sv.locks + 1)
    (hlast : sv'.lastIteration = sv.lastIteration) : sv'.Counted ∧ sv'.Listening e n := by
  have hself : sv'.endedBy i = sv.lastIteration + 1 := by
    rw [h.endedBy_self, hended]
    rfl
  obtain ⟨hn, hone, -, harmed⟩ := hl.armed_eq_one hi
  refine ⟨⟨fun j => ?_, ?_, fun hpos => ?_⟩, .inl ⟨h.updates ▸ hn, fun j => ?_⟩⟩
  · rw [hlast]
    by_cases hj : j = i
    · subst hj
      exact .inr hself
    · rw [h.endedBy_of_ne hj]
      exact hc.between j
  · rw [hlast, hlocks, h.card rfl hended, hc.locks]
  · have := hc.short hpos
    omega
  · rw [hlast, h.armed]
    by_cases hj : j = i
    · subst hj
      rw [Function.update_self, hself, hone]
      cases e <;> simp
    · rw [Function.update_of_ne hj, h.endedBy_of_ne hj]
      exact harmed j

/-- The end of an iteration that was the last one missing. -/
theorem Counts.full {e : Bool} (h : sv.Counts i (.endIteration e) sv' e.toNat) (hc : sv.Counted)
    {n : ℕ} (hl : sv.Listening e n) (hi : sv.armed i ≠ 0) (hended : sv.endedBy i = sv.lastIteration)
    (hm : sv.locks + 1 = m) (hlocks : sv'.locks = 0)
    (hlast : sv'.lastIteration = sv.lastIteration + 1) (f : Bool) :
    sv'.Counted ∧ sv'.Listening f (n + (!e).toNat) := by
  have hself : sv'.endedBy i = sv.lastIteration + 1 := by
    rw [h.endedBy_self, hended]
    rfl
  have hall : ∀ j, sv'.endedBy j = sv.lastIteration + 1 := by
    have hcard := h.card rfl hended
    rw [← hc.locks, hm] at hcard
    have huniv := Finset.eq_univ_of_card _ (hcard.trans (Fintype.card_fin m).symm)
    intro j
    have hmem := Finset.mem_univ j
    rw [← huniv, Finset.mem_filter] at hmem
    exact hmem.2
  obtain ⟨hn, hone, -, harmed⟩ := hl.armed_eq_one hi
  have hold : ∀ j, j ≠ i → sv'.armed j = e.toNat := by
    intro j hj
    rw [h.armed, Function.update_of_ne hj, harmed j, ← h.endedBy_of_ne hj, hall j]
    cases e <;> simp
  have hnew : ∀ j, sv'.armed j = e.toNat := by
    intro j
    by_cases hj : j = i
    · subst hj
      rw [h.armed, Function.update_self, hone, Nat.sub_self, Nat.zero_add]
    · exact hold j hj
  refine ⟨⟨fun j => .inl (hlast ▸ hall j), ?_, fun hpos => hlocks ▸ hpos⟩, ?_⟩
  · rw [hlocks, eq_comm, Finset.card_eq_zero, Finset.filter_eq_empty_iff]
    intro j _
    rw [hall j, hlast]
    omega
  · cases e with
    | false => exact .inr ⟨by rw [h.updates, hn]; rfl, fun j => ⟨hnew j, hlast ▸ hall j⟩⟩
    | true =>
      refine .inl ⟨by rw [h.updates, hn]; rfl, fun j => ?_⟩
      rw [hnew j, hall j, hlast, if_neg (fun h => absurd h.1 (by omega))]
      rfl

/-- The callback of the last `Sync`. -/
theorem endOfIterationCallback_spec (hc : sv.Counted) {f : Bool} {n : ℕ} (hl : sv.Listening f n)
    (hn : sv.updates.length < n) (hlog : sv.Logged) (gc : Bool) :
    (sv.endOfIterationCallback gc).Counted ∧ (sv.endOfIterationCallback gc).Listening f n ∧
      (sv.endOfIterationCallback gc).Quiet ∧ (sv.endOfIterationCallback gc).Logged := by
  rcases hl with ⟨hlen, -⟩ | ⟨hlen, harmed⟩
  · omega
  · refine ⟨⟨hc.between, hc.locks, hc.short⟩, .inl ⟨?_, fun i => ?_⟩, fun i hi => ?_,
      fun x hx => ?_, hlog.2⟩
    · rw [endOfIterationCallback, List.length_append]
      exact hlen
    · show sv.armed i + 1 = if sv.endedBy i = sv.lastIteration + 1 ∧ f = false then 0 else 1
      rw [(harmed i).1, if_neg (fun h => absurd ((harmed i).2.symm.trans h.1) (by omega))]
    · exact absurd hi (Nat.succ_ne_zero _)
    · rcases List.mem_append.mp hx with hx | hx
      · exact hlog.1 x hx
      · rw [List.mem_singleton.mp hx]
        exact (sub_add_cancel _ _).le

end Step

/-! ## What holds of the counters in any case -/

/-- Every end of an iteration is counted once. -/
structure Tallied (sv : Server m G) : Prop where
  sum : ∑ i, sv.endedBy i = m * sv.lastIteration + sv.locks
  short : 0 < m → sv.locks < m

theorem Counts.sum_endedBy {op : Sent G} {one : ℕ} (h : sv.Counts i op sv' one) :
    ∑ j, sv'.endedBy j = ∑ j, sv.endedBy j + (ends [op]).length := by
  have heach : ∀ j, sv'.endedBy j = sv.endedBy j + if j = i then (ends [op]).length else 0 := by
    intro j
    by_cases hj : j = i
    · subst hj
      rw [h.endedBy_self, if_pos rfl]
    · rw [h.endedBy_of_ne hj, if_neg hj, Nat.add_zero]
  rw [Finset.sum_congr rfl fun j _ => heach j, Finset.sum_add_distrib, Finset.sum_ite_eq',
    if_pos (Finset.mem_univ i)]

/-- What a server has seen only grows, and a new iteration begins with a count
of zero. -/
structure Advances (sv sv' : Server m G) : Prop where
  endedBy_le : ∀ i, sv.endedBy i ≤ sv'.endedBy i
  last : sv'.lastIteration = sv.lastIteration ∨
    sv'.lastIteration = sv.lastIteration + 1 ∧ sv'.locks = 0

theorem onHeader_tallied {source : ℤ} {gc sync : Bool} {op : Sent G} (ht : sv.Tallied)
    (h : (sv.complete i).onHeader source i gc op = some (sv', sync)) :
    sv'.Tallied ∧ sv.Advances sv' ∧ sv'.endedBy i = sv.endedBy i + (ends [op]).length := by
  have hpos : 0 < m := i.pos
  have hmono : ∀ {one}, sv.Counts i op sv' one → ∀ j, sv.endedBy j ≤ sv'.endedBy j := by
    intro one hcounts j
    by_cases hj : j = i
    · subst hj
      rw [hcounts.endedBy_self]
      exact Nat.le_add_right _ _
    · exact (hcounts.endedBy_of_ne hj).ge
  rcases onHeader_cases h with
    ⟨hop, hcounts, -, hlocks, hlast, -⟩ | ⟨e, rfl, hcounts, hend⟩
  · refine ⟨⟨?_, ?_⟩, ⟨hmono hcounts, .inl hlast⟩, hcounts.endedBy_self⟩
    · rw [hcounts.sum_endedBy, ends_singleton hop, hlast, hlocks]
      exact ht.sum
    · rw [hlocks]
      exact ht.short
  · have hsum : ∑ j, sv'.endedBy j = m * sv.lastIteration + sv.locks + 1 := by
      rw [hcounts.sum_endedBy, ht.sum]
      rfl
    rcases hend with ⟨hm, -, hlocks, hlast, -⟩ | ⟨hm, -, hlocks, hlast, -⟩
    · refine ⟨⟨?_, fun _ => ?_⟩, ⟨hmono hcounts, .inl hlast⟩, hcounts.endedBy_self⟩
      · rw [hsum, hlast, hlocks]
        rfl
      · have := ht.short hpos
        omega
    · refine ⟨⟨?_, fun _ => hlocks ▸ hpos⟩, ⟨hmono hcounts, .inr ⟨hlast, hlocks⟩⟩,
        hcounts.endedBy_self⟩
      rw [hsum, hlast, hlocks, Nat.mul_add, Nat.mul_one]
      omega

/-- Where the count is zero and nobody is behind, nobody is ahead either. -/
theorem Tallied.endedBy_eq (ht : sv.Tallied) (hlocks : sv.locks = 0)
    (hle : ∀ j, sv.lastIteration ≤ sv.endedBy j) (i : Fin m) : sv.endedBy i = sv.lastIteration := by
  by_contra hne
  have hlt : ∑ _j : Fin m, sv.lastIteration < ∑ j, sv.endedBy j :=
    Finset.sum_lt_sum (fun j _ => hle j) ⟨i, Finset.mem_univ i, (hle i).lt_of_ne' hne⟩
  rw [ht.sum, hlocks, Finset.sum_const, Finset.card_univ, Fintype.card_fin, smul_eq_mul] at hlt
  exact lt_irrefl _ hlt

end Server
end Damaris.Iteration
