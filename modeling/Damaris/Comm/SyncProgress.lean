import Damaris.Comm.SyncBarrier

/-!
# The barrier comes to rest

With one tag in use, and no rank that repeats an outstanding `Sync`, every
message that is handled is a step of `CombiningTree`, so a bounded number of
them is left. When none is left to handle, nothing is in flight.
-/
namespace Damaris.Comm
namespace SyncState

open MPI2Reactor CombiningTree

variable {c : Topology} {bound : c.Rank → ℤ → Bool} {tag : ℤ} {s s' : SyncState c}
  {p source : c.Rank} {m : Message}

/-- Only the tag is in use, and no rank has queued a sync. -/
structure Only (tag : ℤ) (s : SyncState c) : Prop where
  pending : ∀ p t, (s.reactors p).pendingSyncTags t = none
  inFlight : ∀ l, ∀ info ∈ s.net l, info.tag = tag

theorem only_initial (tag : ℤ) : Only tag (initial : SyncState c) :=
  ⟨fun _ _ => rfl, fun _ _ h => absurd h List.not_mem_nil⟩

theorem Only.after (h : Only tag s) {o : Outcome c} (hpending : ∀ t, o.reactor.pendingSyncTags t = none)
    (hsends : ∀ x ∈ o.sends, x.2.tag = tag) : Only tag (s.after p o) := by
  refine ⟨fun q t => ?_, Fifo.forall_mem_pushAll h.inFlight hsends⟩
  by_cases hq : q = p
  · subst hq
    simp only [SyncState.after, send_reactors, setReactor_reactors, Function.update_self]
    exact hpending t
  · simp only [SyncState.after, send_reactors, setReactor_reactors, Function.update_of_ne hq]
    exact h.pending q t

theorem Only.sync (h : Only tag s) (hfree : tag ∉ (s.reactors p).syncTags) :
    Only tag (s.sync p tag) := by
  have hafter : Only tag (s.after p (MPI2Reactor.sync c p tag (s.reactors p))) := by
    refine h.after (fun t => ?_) (sends_sync p tag _)
    rw [MPI2Reactor.sync, if_neg hfree]
    exact h.pending p t
  exact ⟨hafter.pending, hafter.inFlight⟩

theorem Only.deliver (h : Only tag s) (hs : s.deliver p bound m source = some s') : Only tag s' := by
  unfold SyncState.deliver at hs
  split_ifs at hs
  obtain ⟨⟨info, net⟩, hpop, rfl⟩ := Option.map_eq_some_iff.mp hs
  have hnet : Only tag (s.withNet net) :=
    ⟨h.pending, fun l x hx => h.inFlight l x (Fifo.mem_of_pop hpop hx)⟩
  obtain ⟨xs, hhead, -⟩ := Fifo.pop_eq_some.mp hpop
  have htag : info.tag = tag := h.inFlight _ info (hhead ▸ List.mem_cons_self)
  have hafter : Only tag ((s.withNet net).after p (syncCallback c p m info (s.reactors p))) := by
    refine hnet.after ?_ ?_
    · intro t
      have hpending := h.pending p
      unfold syncCallback replay
      split_ifs
      · simp only [reset, hpending]
      · exact hpending t
    · intro x hx
      unfold syncCallback at hx
      split_ifs at hx
      · have hnone : (reset info.tag (s.reactors p)).pendingSyncTags m.code = none := h.pending p _
        simp only [replay, hnone, List.append_nil] at hx
        obtain ⟨q, -, rfl⟩ := List.mem_map.mp hx
        exact htag
      · rw [tag_criticalMass p info _ x hx, htag]
  exact ⟨hafter.pending, hafter.inFlight⟩

/-- Every message that is handled is a step of the barrier machine. -/
theorem Only.view_deliver (h : Only tag s) (hbound : bound p tag = true)
    (hs : s.deliver p bound m source = some s') :
    ∃ a, (∀ q, a ≠ .enter q) ∧ CombiningTree.step c.tree (view tag s) a = some (view tag s') := by
  unfold SyncState.deliver at hs
  split_ifs at hs with hlisten
  obtain ⟨⟨info, net⟩, hpop, rfl⟩ := Option.map_eq_some_iff.mp hs
  obtain ⟨xs, hhead, -⟩ := Fifo.pop_eq_some.mp hpop
  have htag : info.tag = tag := h.inFlight _ info (hhead ▸ List.mem_cons_self)
  dsimp only
  rcases hlisten with ⟨rfl, hsource⟩ | ⟨rfl, hsource⟩
  · refine ⟨.gather source, fun _ => by simp, (view_contribution hpop hsource htag).trans ?_⟩
    rw [view_log]
    simp [callback]
  · refine ⟨.release p, fun _ => by simp, (view_wave hpop hsource htag).trans ?_⟩
    have hcb : (callback c (bound p) .SYNC_WAVE info).toList = [tag] := by
      simp [callback, htag, hbound]
    have hqueue : tag = Message.SYNC_WAVE.code →
        (reset info.tag (s.reactors p)).pendingSyncTags tag = none := fun _ => h.pending p tag
    rw [hcb, view_log, view_log, syncCallback, if_pos rfl, after_append, view_after_replay hqueue, htag]

/-- The messages that are left to handle, before all have come to rest, are no more than these. -/
def work (tag : ℤ) (s : SyncState c) : ℕ := ∑ p, owed c.tree p (view tag s p)

theorem Only.work_deliver (h : Only tag s) (hacc : Accounted tag s) (hbound : bound p tag = true)
    (hs : s.deliver p bound m source = some s') : s'.work tag < s.work tag := by
  obtain ⟨a, ha, hstep⟩ := h.view_deliver hbound hs
  exact hacc.balanced.sum_owed_lt ha hstep

theorem work_sync_le (hfree : tag ∉ (s.reactors p).syncTags) : (s.sync p tag).work tag ≤ s.work tag + 2 := by
  refine sum_owed_enter_le (T := c.tree) (p := p) ?_
  have henter := view_after_sync_of_notMem hfree s p
  have hw : (view tag s p).waiting = false := decide_eq_false hfree
  rw [setReactor_self] at henter
  rw [CombiningTree.step, if_neg (by simp [hw])]
  exact congrArg some henter.symm

/-- A rank handles whatever is in flight on a stream that it listens to. -/
theorem net_eq_nil_of_deliver (hs : s.deliver p bound m source = none) (hlisten : Listens c p m source) :
    s.net ⟨m, source, p⟩ = [] := by
  rw [SyncState.deliver, if_pos hlisten, Option.map_eq_none_iff, Fifo.pop] at hs
  cases hnet : s.net ⟨m, source, p⟩ with
  | nil => rfl
  | cons x xs =>
    rw [hnet] at hs
    cases hs

/-- Nothing is in flight to a rank that can handle nothing. -/
theorem idle_of_deliver (hacc : Accounted tag s) (hs : ∀ m source, s.deliver p bound m source = none) :
    (view tag s p).wave = 0 ∧ ∀ q, c.parent q = p → (view tag s q).up = 0 := by
  have hwave : s.net ⟨.SYNC_WAVE, c.parent p, p⟩ = [] := net_eq_nil_of_deliver (hs _ _) (.inr ⟨rfl, rfl⟩)
  refine ⟨by simp [view, Fifo.inFlight, hwave], ?_⟩
  rintro q rfl
  by_cases hq : q = c.leader
  · subst hq
    exact hacc.balanced.root_up
  · have hup : s.net ⟨.SYNC, q, c.parent q⟩ = [] :=
      net_eq_nil_of_deliver (hs _ _) (.inl ⟨rfl, c.mem_children.mpr ⟨hq, rfl⟩⟩)
    simp [view, Fifo.inFlight, hup]

end SyncState
end Damaris.Comm
