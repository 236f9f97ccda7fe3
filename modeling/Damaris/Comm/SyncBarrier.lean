import Damaris.Comm.MPI2Reactor

/-!
# `MPI2Reactor::Sync` refines the combining-tree barrier

For one tag, what matters of the reactors and of the messages in flight are the
counters of `CombiningTree`. A step of the reactors is then one step of that
machine or none, as long as no queued sync of the tag is replayed.
-/
namespace Damaris.Comm
namespace SyncState

open MPI2Reactor CombiningTree

variable {c : Topology} {bound : c.Rank → ℤ → Bool}

def carries (tag : ℤ) (info : MsgInfo c) : Bool := decide (info.tag = tag)

/-- The reactor has an outstanding `Sync` of the tag. -/
def waits (tag : ℤ) (r : MPI2Reactor) : Bool := decide (tag ∈ r.syncTags)

/-- The counters of one tag. -/
def view (tag : ℤ) (s : SyncState c) : CombiningTree.State c.Rank := fun p =>
  { waiting := waits tag (s.reactors p)
    count := ((s.reactors p).syncCounters tag).getD 0
    up := Fifo.inFlight (carries tag) s.net ⟨.SYNC, p, c.parent p⟩
    wave := Fifo.inFlight (carries tag) s.net ⟨.SYNC_WAVE, c.parent p, p⟩
    released := (s.ran p).count tag }

theorem view_initial (tag : ℤ) : view tag (initial : SyncState c) = CombiningTree.initial := rfl

theorem parent_eq_self {p : c.Rank} : c.parent p = p ↔ p = c.leader := by
  constructor
  · intro h
    by_contra hne
    have hlt := c.parent_lt hne
    rw [h] at hlt
    exact lt_irrefl _ hlt
  · rintro rfl
    exact c.parent_leader

/-! ## What each part of a step does to the counters -/

theorem view_setReactor (tag : ℤ) (s : SyncState c) (p : c.Rank) (r : MPI2Reactor) :
    view tag (s.setReactor p r) = Function.update (view tag s) p
      { view tag s p with
        waiting := waits tag r, count := (r.syncCounters tag).getD 0 } := by
  funext q
  by_cases hq : q = p
  · subst hq
    simp [view]
  · simp [view, hq]

theorem view_send_of_ne {tag : ℤ} (s : SyncState c) {out : List (Link c × MsgInfo c)}
    (h : ∀ m ∈ out, m.2.tag ≠ tag) : view tag (s.send out) = view tag s := by
  have hzero : ∀ l, Fifo.inFlight (carries tag) (s.send out).net l =
      Fifo.inFlight (carries tag) s.net l := by
    intro l
    have hcount : out.countP (fun m => decide (l = m.1) && carries tag m.2) = 0 := by
      rw [List.countP_eq_zero]
      intro m hm
      simp [carries, h m hm]
    rw [send_net, Fifo.inFlight_pushAll, hcount, Nat.add_zero]
  funext q
  simp only [view, hzero, send_reactors, send_ran]

/-- The critical-mass test of the source is the barrier machine's `settle`. -/
theorem view_send_criticalMass {tag : ℤ} (s : SyncState c) (p : c.Rank) {info : MsgInfo c}
    (htag : info.tag = tag) (hsome : ((s.reactors p).syncCounters tag).isSome) :
    view tag (s.send (sendAtCriticalMass c p info (s.reactors p))) =
      Function.update (view tag s) p (settle c.tree p (view tag s p)) := by
  obtain ⟨k, hk⟩ := Option.isSome_iff_exists.mp hsome
  have hfull : Full c.tree p (view tag s p) ↔ k = (c.children p).length + 1 := by
    rw [Full, c.card_tree_children]
    simp [view, hk]
  have hroot : p = c.tree.root ↔ p = c.leader := Iff.rfl
  funext q
  by_cases hf : k = (c.children p).length + 1
  · have hcrit : sendAtCriticalMass c p info (s.reactors p) =
        [(⟨if p = c.leader then .SYNC_WAVE else .SYNC, p, c.parent p⟩, info)] := by
      rw [sendAtCriticalMass, htag, hk, if_pos (congrArg some hf)]
    rw [hcrit, settle, if_pos (hfull.mpr hf)]
    by_cases hq : q = p
    · subst hq
      by_cases hl : q = c.leader
      · have hpl : c.parent q = q := parent_eq_self.mpr hl
        rw [Function.update_self, if_pos (hroot.mpr hl)]
        simp [view, Fifo.inFlight_push, carries, htag, hl]
      · have hpl : c.parent q ≠ q := fun h => hl (parent_eq_self.mp h)
        rw [Function.update_self, if_neg (fun h => hl (hroot.mp h))]
        simp [view, Fifo.inFlight_push, carries, htag, hl]
    · rw [Function.update_of_ne hq]
      by_cases hl : p = c.leader
      · subst hl
        simp [view, Fifo.inFlight_push, hq]
      · simp [view, Fifo.inFlight_push, hq, hl]
  · have hcrit : sendAtCriticalMass c p info (s.reactors p) = [] := by
      rw [sendAtCriticalMass, htag, hk, if_neg (fun h => hf (Option.some.inj h))]
    rw [hcrit, settle, if_neg (fun h => hf (hfull.mp h)), Function.update_eq_self]
    rfl

/-- Forwarding a wave puts one release in flight to each child. -/
theorem view_send_forward {tag : ℤ} (s : SyncState c) (p : c.Rank) {info : MsgInfo c}
    (htag : info.tag = tag) :
    view tag (s.send ((c.children p).map fun q => (⟨.SYNC_WAVE, p, q⟩, info))) =
      fun q => if q ∈ c.children p then { view tag s q with wave := (view tag s q).wave + 1 }
        else view tag s q := by
  have hin : ∀ l, Fifo.inFlight (carries tag)
      (s.send ((c.children p).map fun q => (⟨.SYNC_WAVE, p, q⟩, info))).net l =
      Fifo.inFlight (carries tag) s.net l +
        if l.message = .SYNC_WAVE ∧ l.source = p ∧ l.dest ∈ c.children p then 1 else 0 := by
    intro l
    rw [send_net, Fifo.inFlight_pushAll, List.countP_map]
    congr 1
    by_cases hl : l.message = .SYNC_WAVE ∧ l.source = p
    · obtain ⟨m, src, dst⟩ := l
      obtain ⟨rfl, rfl⟩ := hl
      have hcongr : (c.children src).countP
          ((fun m : Link c × MsgInfo c => decide ((⟨.SYNC_WAVE, src, dst⟩ : Link c) = m.1) &&
            carries tag m.2) ∘ fun q => (⟨.SYNC_WAVE, src, q⟩, info)) =
          (c.children src).count dst := by
        rw [List.count]
        refine List.countP_congr fun q _ => ?_
        simp only [Function.comp_apply, carries, htag, decide_true, Bool.and_true,
          decide_eq_true_eq, Link.mk.injEq, true_and, beq_iff_eq]
        exact eq_comm
      rw [hcongr]
      by_cases hd : dst ∈ c.children src
      · simp [List.count_eq_one_of_mem (c.children_nodup src) hd, hd]
      · simp [List.count_eq_zero_of_not_mem hd, hd]
    · rw [if_neg (fun h => hl ⟨h.1, h.2.1⟩), List.countP_eq_zero]
      intro q _ hq
      simp only [Function.comp_apply, Bool.and_eq_true, decide_eq_true_eq] at hq
      exact hl ⟨by rw [hq.1], by rw [hq.1]⟩
  funext q
  have hmem : q ∈ c.children p → c.parent q = p := fun h => (c.mem_children.mp h).2
  by_cases hq : q ∈ c.children p
  · simp only [view, hin, send_reactors, send_ran]
    simp [hq, hmem hq]
  · simp only [view, hin, send_reactors, send_ran]
    simp [hq]

section Pop

variable {tag : ℤ} {s : SyncState c} {p source : c.Rank} {info : MsgInfo c}
  {net : Fifo.Channels (Link c) (MsgInfo c)}

theorem view_pop_of_ne {m : Message} (hpop : Fifo.pop s.net ⟨m, source, p⟩ = some (info, net))
    (hne : info.tag ≠ tag) : view tag (s.withNet net) = view tag s := by
  have hin := Fifo.inFlight_pop (carries tag) hpop
  funext q
  simp [view, hin, carries, hne]

/-- A contribution taken out of its stream leaves the counter of its sender. -/
theorem view_pop_sync (hpop : Fifo.pop s.net ⟨.SYNC, source, p⟩ = some (info, net))
    (htag : info.tag = tag) (hparent : c.parent source = p) :
    view tag (s.withNet net) =
      Function.update (view tag s) source { view tag s source with up := (view tag s source).up - 1 } ∧
    (view tag s source).up ≠ 0 := by
  have hin := Fifo.inFlight_pop (carries tag) hpop
  subst htag hparent
  constructor
  · funext q
    by_cases hq : q = source
    · subst hq
      simp [view, hin, carries]
    · simp [view, hin, hq]
  · simp [view, hin, carries]

/-- A wave taken out of its stream leaves the counter of its receiver. -/
theorem view_pop_wave (hpop : Fifo.pop s.net ⟨.SYNC_WAVE, source, p⟩ = some (info, net))
    (htag : info.tag = tag) (hsource : source = c.parent p) :
    view tag (s.withNet net) =
      Function.update (view tag s) p { view tag s p with wave := (view tag s p).wave - 1 } ∧
    (view tag s p).wave ≠ 0 := by
  have hin := Fifo.inFlight_pop (carries tag) hpop
  subst htag hsource
  constructor
  · funext q
    by_cases hq : q = p
    · subst hq
      simp [view, hin, carries]
    · simp [view, hin, hq]
  · simp [view, hin, carries]

end Pop

theorem view_log (tag : ℤ) (s : SyncState c) (p : c.Rank) (tags : List ℤ) :
    view tag (s.log p tags) = Function.update (view tag s) p
      { view tag s p with released := (view tag s p).released + tags.count tag } := by
  funext q
  by_cases hq : q = p
  · subst hq
    simp [view]
  · simp [view, hq]

theorem setReactor_self (s : SyncState c) (p : c.Rank) : s.setReactor p (s.reactors p) = s := by
  simp [setReactor]

theorem after_append (s : SyncState c) (p : c.Rank) (o : Outcome c)
    (out : List (Link c × MsgInfo c)) :
    s.after p ⟨o.reactor, out ++ o.sends⟩ = (s.send out).after p o := by
  simp [after, send, setReactor, Fifo.pushAll, List.foldl_append]

/-! ## `Sync` -/

theorem tag_criticalMass (p : c.Rank) (info : MsgInfo c) (r : MPI2Reactor) :
    ∀ m ∈ sendAtCriticalMass c p info r, m.2.tag = info.tag := by
  intro m hm
  unfold sendAtCriticalMass at hm
  split at hm
  · rw [List.mem_singleton.mp hm]
  · simp at hm

theorem sends_sync (p : c.Rank) (tag : ℤ) (r : MPI2Reactor) :
    ∀ m ∈ (MPI2Reactor.sync c p tag r).sends, m.2.tag = tag := by
  intro m hm
  unfold MPI2Reactor.sync at hm
  split at hm
  · simp at hm
  · exact tag_criticalMass p ⟨p, tag, 0⟩ _ m hm

theorem view_after_sync_of_ne {tag tag' : ℤ} (hne : tag' ≠ tag) (s : SyncState c) (p : c.Rank)
    (r : MPI2Reactor) :
    view tag (s.after p (MPI2Reactor.sync c p tag' r)) = view tag (s.setReactor p r) := by
  have hsend : ∀ m ∈ (MPI2Reactor.sync c p tag' r).sends, m.2.tag ≠ tag := by
    intro m hm
    rw [sends_sync p tag' r m hm]
    exact hne
  rw [after, view_send_of_ne _ hsend, view_setReactor, view_setReactor]
  unfold MPI2Reactor.sync
  split_ifs with hin
  · rfl
  · simp [countUp, waits, Ne.symm hne]

/-- A `Sync` that finds its tag outstanding changes no counter: it is only queued. -/
theorem view_after_sync_of_mem {tag : ℤ} {r : MPI2Reactor} (hin : tag ∈ r.syncTags)
    (s : SyncState c) (p : c.Rank) :
    view tag (s.after p (MPI2Reactor.sync c p tag r)) = view tag (s.setReactor p r) := by
  rw [MPI2Reactor.sync, if_pos hin, after, view_send_of_ne _ (by simp), view_setReactor,
    view_setReactor]
  rfl

/-- Every other `Sync` enters the barrier. -/
theorem view_after_sync_of_notMem {tag : ℤ} {r : MPI2Reactor} (hin : tag ∉ r.syncTags)
    (s : SyncState c) (p : c.Rank) :
    view tag (s.after p (MPI2Reactor.sync c p tag r)) =
      Function.update (view tag (s.setReactor p r)) p (settle c.tree p
        { view tag (s.setReactor p r) p with
          waiting := true, count := (view tag (s.setReactor p r) p).count + 1 }) := by
  rw [MPI2Reactor.sync, if_neg hin]
  set r' : MPI2Reactor := { r with
    syncTags := insert tag r.syncTags
    syncCounters := countUp r.syncCounters tag } with hr'
  have hreact : (s.setReactor p r').reactors p = r' := by simp
  have hsettle := @view_send_criticalMass c tag (s.setReactor p r') p ⟨p, tag, 0⟩ rfl
    (by rw [hreact]; simp [hr', countUp])
  rw [hreact] at hsettle
  rw [after]
  refine hsettle.trans ?_
  rw [view_setReactor, view_setReactor, Function.update_idem, Function.update_self,
    Function.update_idem, Function.update_self]
  simp [hr', countUp, waits]

/-! ## Deliveries -/

/-- The replay looks only at `SYNC_WAVE`'s own queue, so the counters of another
tag, or of a tag without queued syncs, do not see it. -/
theorem view_after_replay {tag : ℤ} {r : MPI2Reactor}
    (h : tag = Message.SYNC_WAVE.code → r.pendingSyncTags tag = none) (s : SyncState c)
    (p : c.Rank) :
    view tag (s.after p (replay c p .SYNC_WAVE r)) = view tag (s.setReactor p r) := by
  unfold replay
  cases hp : r.pendingSyncTags Message.SYNC_WAVE.code with
  | none => rw [after, view_send_of_ne _ (by simp)]
  | some k =>
    have hne : Message.SYNC_WAVE.code ≠ tag := by
      intro he
      rw [he, h he.symm] at hp
      exact Option.some_ne_none k hp.symm
    simp only
    rw [view_after_sync_of_ne hne, view_setReactor, view_setReactor]
    rfl

/-- A wave of the tag releases its rank. -/
theorem view_wave {tag : ℤ} {s : SyncState c} {p source : c.Rank} {info : MsgInfo c}
    {net : Fifo.Channels (Link c) (MsgInfo c)}
    (hpop : Fifo.pop s.net ⟨.SYNC_WAVE, source, p⟩ = some (info, net))
    (hsource : source = c.parent p) (htag : info.tag = tag) :
    CombiningTree.step c.tree (view tag s) (.release p) =
      some (view tag ((((s.withNet net).send
        ((c.children p).map fun q => (⟨.SYNC_WAVE, p, q⟩, info))).setReactor p
          (reset tag (s.reactors p))).log p [tag])) := by
  obtain ⟨hview, hpos⟩ := view_pop_wave hpop htag hsource
  have hself : p ∉ c.children p := by
    intro hm
    obtain ⟨hne, hp⟩ := c.mem_children.mp hm
    exact hne (parent_eq_self.mp hp)
  simp only [CombiningTree.step]
  rw [if_neg hpos, view_log, view_setReactor, view_send_forward _ p htag, hview]
  congr 1
  funext q
  by_cases hq : q = p
  · subst hq
    simp [hself, reset, waits]
  · by_cases hc : q ∈ c.children p <;> simp [hq, hc]

/-- A contribution of the tag is gathered at the parent. -/
theorem view_contribution {tag : ℤ} {s : SyncState c} {p source : c.Rank} {info : MsgInfo c}
    {net : Fifo.Channels (Link c) (MsgInfo c)}
    (hpop : Fifo.pop s.net ⟨.SYNC, source, p⟩ = some (info, net))
    (hsource : source ∈ c.children p) (htag : info.tag = tag) :
    CombiningTree.step c.tree (view tag s) (.gather source) =
      some (view tag ((s.withNet net).after p (syncCallback c p .SYNC info (s.reactors p)))) := by
  obtain ⟨hne, hparent⟩ := c.mem_children.mp hsource
  obtain ⟨hview, hpos⟩ := view_pop_sync hpop htag hparent
  have hps : p ≠ source := by
    rintro rfl
    exact hne (parent_eq_self.mp hparent)
  set r : MPI2Reactor :=
    { s.reactors p with syncCounters := countUp (s.reactors p).syncCounters info.tag } with hr
  have hcall : syncCallback c p .SYNC info (s.reactors p) =
      ⟨r, sendAtCriticalMass c p info r⟩ := by
    rw [syncCallback, if_neg (by decide)]
  have hreact : ((s.withNet net).setReactor p r).reactors p = r := by simp
  have hsettle := @view_send_criticalMass c tag ((s.withNet net).setReactor p r) p info htag
    (by rw [hreact]; simp [hr, countUp, htag])
  rw [hreact] at hsettle
  have hroot : c.tree.root = c.leader := rfl
  have htree : c.tree.parent source = p := hparent
  rw [hcall, after]
  refine Eq.trans ?_ (congrArg some hsettle.symm)
  rw [CombiningTree.step, if_neg (by rw [hroot]; exact not_or.mpr ⟨hne, hpos⟩), view_setReactor,
    Function.update_idem, Function.update_self, hview]
  simp [htree, hps, hr, countUp, htag, waits, view]

/-- A contribution to another tag's barrier leaves the counters of this one. -/
theorem view_contribution_of_ne {tag : ℤ} {s : SyncState c} {p source : c.Rank} {info : MsgInfo c}
    {net : Fifo.Channels (Link c) (MsgInfo c)}
    (hpop : Fifo.pop s.net ⟨.SYNC, source, p⟩ = some (info, net)) (htag : info.tag ≠ tag) :
    view tag ((s.withNet net).after p (syncCallback c p .SYNC info (s.reactors p))) =
      view tag s := by
  have hsend : ∀ x ∈ (syncCallback c p .SYNC info (s.reactors p)).sends, x.2.tag ≠ tag := by
    intro x hx
    rw [syncCallback, if_neg (by decide)] at hx
    rw [tag_criticalMass p info _ x hx]
    exact htag
  rw [after, view_send_of_ne _ hsend, view_setReactor, view_pop_of_ne hpop htag, syncCallback,
    if_neg (by decide)]
  simp [countUp, waits, Ne.symm htag, view]

theorem view_forward_of_ne {tag : ℤ} (s : SyncState c) (p : c.Rank) {info : MsgInfo c}
    (htag : info.tag ≠ tag) :
    view tag (s.send ((c.children p).map fun q => (⟨.SYNC_WAVE, p, q⟩, info))) = view tag s := by
  refine view_send_of_ne _ fun x hx => ?_
  obtain ⟨q, -, rfl⟩ := List.mem_map.mp hx
  exact htag

/-- Handling a message is a step of the barrier machine, or none: no rank enters by it. -/
theorem view_deliver {tag : ℤ} {s s' : SyncState c} {p source : c.Rank} {m : Message}
    (hbound : bound p tag = true)
    (hqueue : tag = Message.SYNC_WAVE.code → (s.reactors p).pendingSyncTags tag = none)
    (hs : s.deliver p bound m source = some s') :
    view tag s' = view tag s ∨ ∃ a, (∀ q, a ≠ .enter q) ∧
      CombiningTree.step c.tree (view tag s) a = some (view tag s') := by
  unfold deliver at hs
  split_ifs at hs with hlisten
  obtain ⟨⟨info, net⟩, hpop, hs'⟩ := Option.map_eq_some_iff.mp hs
  dsimp only at hs'
  subst hs'
  rcases hlisten with ⟨rfl, hsource⟩ | ⟨rfl, hsource⟩
  · -- a child's contribution: no callback runs
    have hlog : ∀ t : SyncState c, view tag (t.log p (callback c (bound p) .SYNC info).toList) =
        view tag t := by
      intro t
      rw [view_log]
      simp [callback]
    rw [hlog]
    by_cases htag : info.tag = tag
    · exact .inr ⟨.gather source, fun _ => by simp, view_contribution hpop hsource htag⟩
    · exact .inl (view_contribution_of_ne hpop htag)
  · -- the wave from the parent
    rw [syncCallback, if_pos rfl, after_append]
    have hqueue' : tag = Message.SYNC_WAVE.code →
        (reset info.tag (s.reactors p)).pendingSyncTags tag = none := hqueue
    by_cases htag : info.tag = tag
    · right
      refine ⟨.release p, fun _ => by simp, ?_⟩
      have hcb : (callback c (bound p) .SYNC_WAVE info).toList = [tag] := by
        simp [callback, htag, hbound]
      rw [hcb, view_wave hpop hsource htag, view_log, view_log, view_after_replay hqueue', htag]
    · left
      have hcb : (callback c (bound p) .SYNC_WAVE info).toList.count tag = 0 := by
        unfold callback
        split <;> simp [htag]
      rw [view_log, hcb, view_after_replay hqueue', view_setReactor, view_forward_of_ne _ p htag,
        view_pop_of_ne hpop htag]
      simp [reset, waits, Ne.symm htag, view]

/-! ## Whole runs -/

/-- The syncs of a tag that rank `p` has queued behind an outstanding one. -/
def queued (tag : ℤ) (s : SyncState c) (p : c.Rank) : ℤ :=
  ((s.reactors p).pendingSyncTags tag).getD 0

/-- Every call of `Sync` is a round entered or a sync still queued. -/
structure Accounted (tag : ℤ) (s : SyncState c) : Prop where
  balanced : Balanced c.tree (view tag s)
  queued_nonneg : ∀ p, 0 ≤ queued tag s p
  called_eq : ∀ p, (s.called p tag : ℤ) = entries (view tag s p) + queued tag s p
  no_replay : tag = Message.SYNC_WAVE.code → ∀ p, (s.reactors p).pendingSyncTags tag = none

/-- No rank calls `Sync(tag)` while an earlier `Sync(tag)` of its own is outstanding. -/
def OneAtATime (tag : ℤ) (s : SyncState c) : SyncAction c → Prop
  | .sync p tag' => tag' = tag → tag ∉ (s.reactors p).syncTags
  | .deliver _ _ _ => True

theorem accounted_initial (tag : ℤ) : Accounted tag (initial : SyncState c) := by
  refine ⟨?_, fun p => ?_, fun p => ?_, fun _ _ => rfl⟩
  · rw [view_initial]
    exact balanced_initial c.tree
  · simp [queued, initial, new]
  · rw [view_initial]
    simp [queued, initial, new, entries, CombiningTree.initial]

/-- A delivery queues nothing and counts no call. -/
theorem deliver_queued {tag : ℤ} {s s' : SyncState c} {p source : c.Rank} {m : Message}
    (hqueue : tag = Message.SYNC_WAVE.code → (s.reactors p).pendingSyncTags tag = none)
    (hs : s.deliver p bound m source = some s') (q : c.Rank) :
    (s'.reactors q).pendingSyncTags tag = (s.reactors q).pendingSyncTags tag ∧
      s'.called q tag = s.called q tag := by
  unfold deliver at hs
  split_ifs at hs
  obtain ⟨⟨info, net⟩, -, hs'⟩ := Option.map_eq_some_iff.mp hs
  dsimp only at hs'
  subst hs'
  refine ⟨?_, rfl⟩
  by_cases hq : q = p
  · subst hq
    simp only [log_reactors, after, send_reactors, setReactor_reactors, Function.update_self]
    unfold syncCallback
    split
    · next hm =>
      -- the wave: only the replay touches the queues, and only that of `SYNC_WAVE`
      subst hm
      simp only [replay]
      split
      · rfl
      · next k hk =>
        have hne : tag ≠ Message.SYNC_WAVE.code := by
          rintro rfl
          rw [show (reset info.tag (s.reactors q)).pendingSyncTags = (s.reactors q).pendingSyncTags
            from rfl, hqueue rfl] at hk
          simp at hk
        rw [MPI2Reactor.sync]
        split <;> simp [hne, reset]
    · rfl
  · simp [after, hq]

/-- A call that repeats no outstanding one leaves the queues of its tag alone. -/
theorem sync_queued {tag tag' : ℤ} {s : SyncState c} {p : c.Rank}
    (hone : OneAtATime tag s (.sync p tag')) (q : c.Rank) :
    ((s.sync p tag').reactors q).pendingSyncTags tag = (s.reactors q).pendingSyncTags tag := by
  have hreact : (s.sync p tag').reactors =
      Function.update s.reactors p (MPI2Reactor.sync c p tag' (s.reactors p)).reactor := rfl
  rw [hreact]
  by_cases hq : q = p
  · subst hq
    rw [Function.update_self, MPI2Reactor.sync]
    by_cases htag : tag' = tag
    · subst htag
      rw [if_neg (hone rfl)]
    · split <;> simp [Ne.symm htag]
  · rw [Function.update_of_ne hq]

/-- What a step has to add up to: the rounds entered and the syncs queued by a
rank are together the calls it made. -/
theorem Accounted.next {tag : ℤ} {s s' : SyncState c} (h : Accounted tag s)
    (hbalanced : Balanced c.tree (view tag s'))
    (hmade : ∀ p, ∃ e q : ℕ, entries (view tag s' p) = entries (view tag s p) + e ∧
      queued tag s' p = queued tag s p + q ∧ s'.called p tag = s.called p tag + e + q)
    (hkeep : tag = Message.SYNC_WAVE.code → ∀ p,
      (s'.reactors p).pendingSyncTags tag = (s.reactors p).pendingSyncTags tag) :
    Accounted tag s' := by
  refine ⟨hbalanced, fun p => ?_, fun p => ?_, fun he p => (hkeep he p).trans (h.no_replay he p)⟩
  · obtain ⟨e, q, -, hq, -⟩ := hmade p
    have hn := h.queued_nonneg p
    omega
  · obtain ⟨e, q, he, hq, hc⟩ := hmade p
    have hn := h.called_eq p
    rw [he, hq, hc]
    push_cast
    omega

/-- A call that finds its tag outstanding is queued. -/
theorem Accounted.sync_of_mem {tag : ℤ} {s : SyncState c} (h : Accounted tag s) {p : c.Rank}
    (hin : tag ∈ (s.reactors p).syncTags) (hne : tag ≠ Message.SYNC_WAVE.code) :
    Accounted tag (s.sync p tag) := by
  have hview : view tag (s.sync p tag) = view tag s :=
    (view_after_sync_of_mem hin s p).trans (by rw [setReactor_self])
  refine h.next (by rw [hview]; exact h.balanced) (fun q => ?_) (fun he => absurd he hne)
  refine ⟨0, if q = p then 1 else 0, by rw [hview, Nat.add_zero], ?_, ?_⟩
  · by_cases hq : q = p
    · subst hq
      simp [queued, sync, after, MPI2Reactor.sync, hin]
    · simp [queued, sync, after, hq]
  · by_cases hq : q = p
    · subst hq
      simp [sync]
    · simp [sync, hq]

/-- A call that finds its tag free enters the barrier. -/
theorem Accounted.sync_of_notMem {tag : ℤ} {s : SyncState c} (h : Accounted tag s) {p : c.Rank}
    (hin : tag ∉ (s.reactors p).syncTags) : Accounted tag (s.sync p tag) := by
  have hstep : CombiningTree.step c.tree (view tag s) (.enter p) =
      some (view tag (s.sync p tag)) := by
    have hw : (view tag s p).waiting = false := decide_eq_false hin
    have henter := view_after_sync_of_notMem hin s p
    rw [setReactor_self] at henter
    rw [CombiningTree.step, if_neg (by simp [hw])]
    exact congrArg some henter.symm
  have hqueued := @sync_queued c tag tag s p fun _ => hin
  refine h.next (h.balanced.step hstep) (fun q => ?_) (fun _ => hqueued)
  refine ⟨if q = p then 1 else 0, 0, ?_, by simp [queued, hqueued], ?_⟩
  · rw [h.balanced.entries_step hstep q]
    simp [eq_comm]
  · by_cases hq : q = p
    · subst hq
      simp [sync]
    · simp [sync, hq]

theorem Accounted.sync_of_ne {tag tag' : ℤ} {s : SyncState c} (h : Accounted tag s) {p : c.Rank}
    (hne : tag' ≠ tag) : Accounted tag (s.sync p tag') := by
  have hview : view tag (s.sync p tag') = view tag s :=
    (view_after_sync_of_ne hne s p (s.reactors p)).trans (by rw [setReactor_self])
  have hqueued := @sync_queued c tag tag' s p fun he => absurd he hne
  refine h.next (by rw [hview]; exact h.balanced) (fun q => ?_) (fun _ => hqueued)
  refine ⟨0, 0, by rw [hview, Nat.add_zero], by simp [queued, hqueued], ?_⟩
  by_cases hq : q = p
  · subst hq
    simp [sync, Ne.symm hne]
  · simp [sync, hq]

theorem Accounted.step {tag : ℤ} {s s' : SyncState c} (h : Accounted tag s) {a : SyncAction c}
    (hbound : ∀ p, bound p tag = true)
    (hone : tag = Message.SYNC_WAVE.code → OneAtATime tag s a)
    (hs : SyncState.step bound s a = some s') : Accounted tag s' := by
  cases a with
  | sync p tag' =>
    obtain rfl := Option.some.inj hs
    by_cases htag : tag' = tag
    · subst htag
      by_cases hin : tag' ∈ (s.reactors p).syncTags
      · exact h.sync_of_mem hin fun he => hone he rfl hin
      · exact h.sync_of_notMem hin
    · exact h.sync_of_ne htag
  | deliver p m source =>
    have hs' : s.deliver p bound m source = some s' := hs
    have hkeep := deliver_queued (fun he => h.no_replay he p) hs'
    have hqueued : ∀ q, queued tag s' q = queued tag s q := fun q => by
      rw [queued, (hkeep q).1, queued]
    have hmove : Balanced c.tree (view tag s') ∧
        ∀ q, entries (view tag s' q) = entries (view tag s q) := by
      rcases view_deliver (hbound p) (fun he => h.no_replay he p) hs' with he | ⟨a, hne, ha⟩
      · rw [he]
        exact ⟨h.balanced, fun _ => rfl⟩
      · refine ⟨h.balanced.step ha, fun q => ?_⟩
        rw [h.balanced.entries_step ha q, if_neg (hne q), Nat.add_zero]
    refine h.next hmove.1 (fun q => ⟨0, 0, by rw [hmove.2, Nat.add_zero], by simp [hqueued], ?_⟩)
      (fun _ q => (hkeep q).1)
    exact (hkeep q).2

namespace Accounted

variable {tag : ℤ} {s : SyncState c}

/-- No rank runs the callback more often than any rank has called `Sync`. -/
theorem barrier (h : Accounted tag s) (p q : c.Rank) : (s.ran p).count tag ≤ s.called q tag := by
  have hb : (s.ran p).count tag ≤ entries (view tag s q) := h.balanced.barrier p q
  have hn := h.queued_nonneg q
  have hc := h.called_eq q
  omega

/-- With nothing in flight and every rank having called equally often, what is
missing from the callbacks is what is still queued. -/
theorem ran_eq_iff (h : Accounted tag s) (hq : s.Quiescent) {k : ℕ}
    (hk : ∀ p, s.called p tag = k) :
    (∀ p, (s.ran p).count tag = k) ↔ ∀ p, queued tag s p = 0 := by
  have hidle : ∀ p, (view tag s p).up = 0 ∧ (view tag s p).wave = 0 := fun p => by
    simp [view, Fifo.inFlight, hq _]
  have hrel : ∀ p, (s.ran p).count tag = (view tag s c.tree.root).released :=
    fun p => h.balanced.released_eq hidle p
  have hentries : ∀ p, entries (view tag s p) = (view tag s c.tree.root).released +
      if (view tag s p).waiting then 1 else 0 := by
    intro p
    rw [entries, h.balanced.released_eq hidle p]
  obtain ⟨p₀, hp₀⟩ := h.balanced.exists_not_waiting hidle
  have h₀ := h.called_eq p₀
  rw [hentries, hp₀, hk] at h₀
  simp only [Bool.false_eq_true, if_false, Nat.add_zero] at h₀
  constructor
  · intro hran p
    have hc := h.called_eq p
    have hn := h.queued_nonneg p
    have hr := hran p
    rw [hrel p] at hr
    rw [hentries, hk] at hc
    omega
  · intro hzero p
    have hz := hzero p₀
    rw [hrel p]
    omega

end Accounted

/-- What a user of `Sync(tag)` relies on: the callback runs behind a barrier, and
once nothing is in flight it has run once for every call that all ranks made. -/
def LosesNoSync (tag : ℤ) (s : SyncState c) : Prop :=
  (∀ p q, (s.ran p).count tag ≤ s.called q tag) ∧
    (s.Quiescent → ∀ k, (∀ p, s.called p tag = k) → ∀ p, (s.ran p).count tag = k)

/-- With tags other than that of the wave the barrier needs no assumption: a
repeated `Sync` may be lost, but never lets a rank through early. -/
theorem barrier_of_ne_syncWave {tag : ℤ} (htag : tag ≠ Message.SYNC_WAVE.code)
    (hbound : ∀ p, bound p tag = true) {as : List (SyncAction c)} {s : SyncState c}
    (hr : StepSystem.run (SyncState.step bound) initial as = some s) (p q : c.Rank) :
    (s.ran p).count tag ≤ s.called q tag := by
  have hinv : Accounted tag s := StepSystem.run_invariant
    (fun _ _ _ h hs => h.step hbound (fun he => absurd he htag) hs) (accounted_initial tag) hr
  exact hinv.barrier p q

/-- In every run in which no rank repeats `Sync(tag)` before the callback of its
outstanding one, no synchronisation is lost. -/
theorem losesNoSync_of_oneAtATime {tag : ℤ} (hbound : ∀ p, bound p tag = true)
    {as : List (SyncAction c)} {s : SyncState c}
    (hg : StepSystem.Guarded (SyncState.step bound) (OneAtATime tag) initial as)
    (hr : StepSystem.run (SyncState.step bound) initial as = some s) : LosesNoSync tag s := by
  have hinv : Accounted tag s ∧ ∀ p, (s.reactors p).pendingSyncTags tag = none := by
    refine StepSystem.guarded_invariant (I := fun s => Accounted tag s ∧
      ∀ p, (s.reactors p).pendingSyncTags tag = none) ?_ ⟨accounted_initial tag, fun _ => rfl⟩ hg hr
    rintro s a s' ⟨hacc, hnone⟩ hone hs
    refine ⟨hacc.step hbound (fun _ => hone) hs, fun q => ?_⟩
    cases a with
    | sync p tag' =>
      obtain rfl := Option.some.inj hs
      exact (sync_queued hone q).trans (hnone q)
    | deliver p m source => exact ((deliver_queued (fun _ => hnone p) hs q).1).trans (hnone q)
  refine ⟨hinv.1.barrier, fun hq k hk => (hinv.1.ran_eq_iff hq hk).mpr fun p => ?_⟩
  rw [queued, hinv.2 p]
  rfl

/-- A communicator of two processes. -/
def pair : Topology := ⟨2, 2, by decide, by decide⟩

/-- Rank 1 of two. -/
def other : pair.Rank := ⟨1, by decide⟩

/-- Each process calls `Sync` once, rank 1's contribution reaches rank 0, and
the wave passes both. -/
def pairRound : List (SyncAction pair) :=
  [.sync pair.leader 2, .sync other 2, .deliver pair.leader .SYNC other,
    .deliver pair.leader .SYNC_WAVE pair.leader, .deliver other .SYNC_WAVE pair.leader]

theorem losesNoSync_pairRound : ∃ s,
    StepSystem.run (SyncState.step fun _ _ => true) initial pairRound = some s ∧
      LosesNoSync 2 s := by
  obtain ⟨s, hs⟩ := Option.isSome_iff_exists.mp (by decide :
    (StepSystem.run (SyncState.step fun _ _ => true) initial pairRound).isSome)
  refine ⟨s, hs, losesNoSync_of_oneAtATime (fun _ => rfl) ?_ hs⟩
  refine ⟨fun _ => Finset.notMem_empty _, fun s₁ h₁ => ⟨fun _ => ?_, fun s₂ _ => ?_⟩⟩
  · obtain rfl := Option.some.inj h₁
    decide
  · exact ⟨trivial, fun _ _ => ⟨trivial, fun _ _ => ⟨trivial, fun _ _ => trivial⟩⟩⟩

/-- A communicator of one process. -/
def alone : Topology := ⟨1, 2, by decide, by decide⟩

theorem alone_eq (p : alone.Rank) : p = alone.leader := by
  have hp : p.val < 1 := p.isLt
  exact Fin.ext (Nat.lt_one_iff.mp hp)

/-- One process calls `Sync` twice before its wave: nothing is in flight
afterwards and the callback has run once. -/
theorem repeated_sync_lost : ¬ ∀ (c : Topology) (bound : c.Rank → ℤ → Bool) (tag : ℤ),
    (∀ p, bound p tag = true) → ∀ (as : List (SyncAction c)) (s : SyncState c),
    StepSystem.run (SyncState.step bound) initial as = some s → LosesNoSync tag s := by
  intro hall
  have hlost := (hall alone (fun _ _ => true) 2 (fun _ => rfl)
    [.sync alone.leader 2, .sync alone.leader 2, .deliver alone.leader .SYNC_WAVE alone.leader] _ rfl).2
  have hran := hlost (fun l => ?_) 2 (fun p => ?_) alone.leader
  · exact absurd hran (by decide)
  · obtain ⟨m, source, dest⟩ := l
    rw [alone_eq source, alone_eq dest]
    cases m <;> rfl
  · rw [alone_eq p]
    rfl

end SyncState
end Damaris.Comm
