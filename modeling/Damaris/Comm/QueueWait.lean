import Damaris.Comm.Channel

/-!
# The wait for space in the send queue

A copying send polls its reactor until the channel's counter is below the limit. What each `PollOne`
finds is up to MPI and to the callbacks that are not of this channel; these bind requests and do not
send on it.
-/
namespace Damaris.Comm.Channel

/-- What one `PollOne` finds, and how many requests are bound in its callback. -/
inductive Found
  | nothing
  | request (index : ℕ) (len : ℤ) (bound : ℕ)

namespace State

/-- `PollOne`. -/
def pollOne (s : State) : Found → State
  | .nothing => s
  | .request index len bound =>
    match s.poll index len with
    | none => s
    | some s' => { s' with requests := s'.requests ++ List.replicate bound none }

/-- `while(async_count_ >= max_async_) r->PollOne();`, from the `k`-th poll. -/
def wait (maxAsync : ℤ) (polls : ℕ → Found) : ℕ → ℕ → State → Option State
  | 0, _, _ => none
  | fuel + 1, k, s =>
    if maxAsync ≤ s.asyncCount then wait maxAsync polls fuel (k + 1) (s.pollOne (polls k)) else some s

/-- A copying `SimpleAsyncSend` with its reactor there, until it has left the loop. -/
def awaitSpace (c : Channel) (polls : ℕ → Found) (fuel : ℕ) (s : State) (count : ℕ) : Option State :=
  wait c.maxAsync polls fuel 1 ((s.send c count true).1.pollOne (polls 0))

/-- The send leaves its loop. -/
def Leaves (c : Channel) (polls : ℕ → Found) (s : State) (count : ℕ) : Prop :=
  ∃ fuel t, s.awaitSpace c polls fuel count = some t

/-- The state after so many polls. -/
def polled (polls : ℕ → Found) (s : State) : ℕ → State
  | 0 => s
  | k + 1 => (polled polls s k).pollOne (polls k)

/-- As long as a send is outstanding, a later poll finds one completed. -/
def Completes (polls : ℕ → Found) (s : State) : Prop :=
  ∀ k, (polled polls s k).outstanding ≠ [] → ∃ j ≥ k, ∃ index len bound copied,
    polls j = .request index len bound ∧ (polled polls s j).requests[index]? = some (some copied)

/-- What no poll takes off the counter. -/
def stuck (s : State) : ℤ := s.asyncCount - s.outstanding.length

variable {c : Channel} {s s' : State} {polls : ℕ → Found}

/-! ## Polls -/

theorem outstanding_removeRequest {index : ℕ} {request : Option Copied}
    (h : s.requests[index]? = some request) :
    (removeRequest s.requests index).reduceOption.length + request.toList.length =
      s.outstanding.length := by
  have hlength := ((removeRequest_perm h).filterMap id).length_eq
  cases request with
  | none => exact hlength
  | some copied => exact hlength

/-- A poll takes one send off the counter and off the outstanding ones, or none off both. -/
theorem poll_spec {index : ℕ} {len : ℤ} (h : s.poll index len = some s') :
    ∃ request, s.requests[index]? = some request ∧ s'.stuck = s.stuck ∧
      s'.outstanding.length + request.toList.length = s.outstanding.length := by
  obtain ⟨request, hrequest, rfl⟩ := Option.map_eq_some_iff.mp h
  have hlength := outstanding_removeRequest hrequest
  refine ⟨request, hrequest, ?_⟩
  cases request with
  | none =>
    refine ⟨?_, hlength⟩
    simp only [stuck, outstanding, Option.toList_none, List.length_nil] at hlength ⊢
    omega
  | some copied =>
    refine ⟨?_, hlength⟩
    simp only [stuck, outstanding, callback, Option.toList_some, List.length_singleton] at hlength ⊢
    omega

theorem outstanding_bound (s : State) (bound : ℕ) :
    outstanding { s with requests := s.requests ++ List.replicate bound none } = s.outstanding := by
  simp [outstanding, List.reduceOption_append, List.reduceOption_replicate_none]

theorem pollOne_spec (s : State) (found : Found) :
    (s.pollOne found).stuck = s.stuck ∧
      (s.pollOne found).outstanding.length ≤ s.outstanding.length := by
  cases found with
  | nothing => exact ⟨rfl, le_rfl⟩
  | request index len bound =>
    simp only [pollOne]
    cases hpoll : s.poll index len with
    | none => exact ⟨rfl, le_rfl⟩
    | some s' =>
      obtain ⟨request, -, hstuck, hlength⟩ := poll_spec hpoll
      simp only [stuck, outstanding_bound] at hstuck ⊢
      exact ⟨hstuck, by omega⟩

/-- A poll that finds one of the channel's sends completed. -/
theorem pollOne_completed {index : ℕ} {len : ℤ} {bound : ℕ} {copied : Copied}
    (h : s.requests[index]? = some (some copied)) :
    (s.pollOne (.request index len bound)).outstanding.length < s.outstanding.length := by
  obtain ⟨s', hpoll⟩ : ∃ s', s.poll index len = some s' :=
    ⟨_, Option.map_eq_some_iff.mpr ⟨_, h, rfl⟩⟩
  obtain ⟨request, hrequest, -, hlength⟩ := poll_spec hpoll
  obtain rfl := Option.some.inj (h.symm.trans hrequest)
  simp only [pollOne, hpoll, outstanding_bound]
  simp only [Option.toList_some, List.length_singleton] at hlength
  omega

theorem stuck_polled (polls : ℕ → Found) (s : State) (k : ℕ) :
    (polled polls s k).stuck = s.stuck := by
  induction k with
  | zero => rfl
  | succ k ih => exact (pollOne_spec _ _).1.trans ih

theorem outstanding_polled_le (polls : ℕ → Found) (s : State) {j k : ℕ} (h : k ≤ j) :
    (polled polls s j).outstanding.length ≤ (polled polls s k).outstanding.length := by
  induction j, h using Nat.le_induction with
  | base => exact le_rfl
  | succ j _ ih => exact (pollOne_spec _ _).2.trans ih

/-- The counter never gets below what is stuck. -/
theorem stuck_le_asyncCount (s : State) : s.stuck ≤ s.asyncCount := by
  unfold stuck
  omega

/-- In the end nothing is outstanding: by induction on the number of sends that are. -/
theorem exists_none_outstanding (h : Completes polls s) (n k : ℕ)
    (hn : (polled polls s k).outstanding.length ≤ n) :
    ∃ j ≥ k, (polled polls s j).outstanding = [] := by
  induction n generalizing k with
  | zero => exact ⟨k, le_rfl, List.eq_nil_of_length_eq_zero (Nat.le_zero.mp hn)⟩
  | succ n ih =>
    by_cases hnone : (polled polls s k).outstanding = []
    · exact ⟨k, le_rfl, hnone⟩
    · obtain ⟨j, hj, index, len, bound, copied, hfound, hrequest⟩ := h k hnone
      have hle := outstanding_polled_le polls s hj
      have hlt : (polled polls s (j + 1)).outstanding.length <
          (polled polls s j).outstanding.length := by
        rw [polled, hfound]
        exact pollOne_completed hrequest
      obtain ⟨i, hi, hempty⟩ := ih (j + 1) (by omega)
      exact ⟨i, by omega, hempty⟩

/-! ## The loop -/

/-- The loop ends with the first poll after which the counter is below the limit. -/
theorem wait_eq_some {maxAsync : ℤ} {fuel k : ℕ} {t : State} :
    wait maxAsync polls fuel k (polled polls s k) = some t →
      ∃ j ≥ k, (polled polls s j).asyncCount < maxAsync := by
  induction fuel generalizing k with
  | zero => exact fun h => by cases h
  | succ fuel ih =>
    intro h
    unfold wait at h
    split_ifs at h with hfull
    · obtain ⟨j, hj, hroom⟩ := ih (k := k + 1) h
      exact ⟨j, Nat.le_of_succ_le hj, hroom⟩
    · exact ⟨k, le_rfl, not_le.mp hfull⟩

theorem exists_wait {maxAsync : ℤ} {j k : ℕ} (hj : k ≤ j)
    (hroom : (polled polls s j).asyncCount < maxAsync) :
    ∃ fuel t, wait maxAsync polls fuel k (polled polls s k) = some t := by
  induction h : j - k generalizing k with
  | zero =>
    obtain rfl : j = k := by omega
    exact ⟨1, _, by rw [wait, if_neg (not_le.mpr hroom)]⟩
  | succ n ih =>
    by_cases hfull : maxAsync ≤ (polled polls s k).asyncCount
    · obtain ⟨fuel, t, hwait⟩ := ih (k := k + 1) (by omega) (by omega)
      exact ⟨fuel + 1, t, by rw [wait, if_pos hfull]; exact hwait⟩
    · exact ⟨1, _, by rw [wait, if_neg hfull]⟩

theorem leaves_iff_room (c : Channel) (polls : ℕ → Found) (s : State) (count : ℕ) :
    s.Leaves c polls count ↔
      ∃ k, (polled polls (s.send c count true).1 (k + 1)).asyncCount < c.maxAsync := by
  constructor
  · rintro ⟨fuel, t, hwait⟩
    obtain ⟨j, hj, hroom⟩ := wait_eq_some (s := (s.send c count true).1) (k := 1) hwait
    obtain ⟨k, rfl⟩ := Nat.exists_eq_add_of_le' hj
    exact ⟨k, hroom⟩
  · rintro ⟨k, hroom⟩
    exact exists_wait (Nat.le_add_left 1 k) hroom

/-! ## The send that waits -/

/-- The send itself is on the counter, and no poll takes it off. -/
theorem stuck_send (hmax : 1 ≤ c.maxAsync) (s : State) (count : ℕ) :
    (s.send c count true).1.stuck = s.stuck + 1 := by
  have hne : c.maxAsync ≠ 0 := by omega
  simp only [send, if_neg hne, stuck, outstanding]
  simp
  omega

theorem leaves_of_stuck_lt (hmax : 1 ≤ c.maxAsync) {count : ℕ}
    (h : Completes polls (s.send c count true).1) (hroom : s.stuck + 1 < c.maxAsync) :
    s.Leaves c polls count := by
  obtain ⟨j, hj, hempty⟩ := exists_none_outstanding h _ 1 le_rfl
  obtain ⟨k, rfl⟩ := Nat.exists_eq_add_of_le' hj
  refine (leaves_iff_room c polls s count).mpr ⟨k, ?_⟩
  have hstuck := stuck_polled polls (s.send c count true).1 (k + 1)
  rw [stuck, hempty, List.length_nil, Nat.cast_zero, sub_zero, stuck_send hmax] at hstuck
  rwa [hstuck]

/-- However the polls go, the counter stays at the limit. -/
theorem not_leaves_of_le_stuck (hmax : 1 ≤ c.maxAsync) {count : ℕ}
    (hfull : c.maxAsync ≤ s.stuck + 1) : ¬ s.Leaves c polls count := by
  rw [leaves_iff_room]
  rintro ⟨k, hroom⟩
  have hle := stuck_le_asyncCount (polled polls (s.send c count true).1 (k + 1))
  rw [stuck_polled, stuck_send hmax] at hle
  omega

/-- In any state, when the outstanding sends complete, a copying send leaves its loop if and only if
what is on the counter without being outstanding leaves room for one more than the send itself. -/
theorem leaves_iff (hmax : 1 ≤ c.maxAsync) {count : ℕ}
    (h : Completes polls (s.send c count true).1) :
    s.Leaves c polls count ↔ s.asyncCount - s.outstanding.length + 1 < c.maxAsync := by
  constructor
  · intro hleaves
    by_contra hroom
    exact not_leaves_of_le_stuck hmax (not_lt.mp hroom) hleaves
  · exact leaves_of_stuck_lt hmax h

theorem polled_nothing (s : State) (k : ℕ) : polled (fun _ => .nothing) s k = s := by
  induction k with
  | zero => rfl
  | succ k ih => exact ih

theorem completes_nothing (h : s.outstanding = []) : Completes (fun _ => .nothing) s := by
  intro k hk
  rw [polled_nothing] at hk
  exact absurd h hk

theorem leaves_with_two : initial.Leaves ⟨some 0, 2⟩ (fun _ => .nothing) 4 :=
  (leaves_iff (by decide) (completes_nothing rfl)).mpr (by decide)

/-- With a limit of one, a send waits for itself, also when nothing was sent before. -/
theorem waits_for_itself : ¬ ∀ (c : Channel) (s : State) (polls : ℕ → Found) (count : ℕ),
    1 ≤ c.maxAsync → Completes polls (s.send c count true).1 → s.Leaves c polls count := by
  intro hall
  have hleaves := hall ⟨some 0, 1⟩ initial (fun _ => .nothing) 4 le_rfl (completes_nothing rfl)
  exact not_leaves_of_le_stuck le_rfl (by decide) hleaves

/-- Where the counter is right and no other send is in progress, the limit has to be two or more. -/
theorem Sound.leaves_iff_two_le (hs : s.Sound c) (hidle : s.running = []) (hmax : 1 ≤ c.maxAsync)
    {count : ℕ} (h : Completes polls (s.send c count true).1) :
    s.Leaves c polls count ↔ 2 ≤ c.maxAsync := by
  have hstuck : s.stuck = 0 := by
    have hcounted := hs.counted
    rw [pending, hidle, List.nil_append] at hcounted
    rw [stuck, hcounted, sub_self]
  constructor
  · intro hleaves
    by_contra hone
    exact not_leaves_of_le_stuck hmax (by omega) hleaves
  · exact fun htwo => leaves_of_stuck_lt hmax h (by omega)

end State
end Damaris.Comm.Channel
