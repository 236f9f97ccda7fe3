import Damaris.Lib.Relay
import Damaris.Comm.SyncBarrier

/-!
# One order for the callbacks of `Sync`

Processes that call `Sync` on several tags may do so in different orders. Rank 0
decides: it issues the waves, one stream of them for all tags, and every rank
relays that stream to its children. The history of the waves is kept next to the
state here; no code reads it.
-/
namespace Damaris.Comm

open MPI2Reactor

variable {c : Topology}

/-- The stream of waves to a rank: from its parent, and at rank 0 from itself. -/
def waveLink (q : c.Rank) : Link c := ⟨.SYNC_WAVE, c.parent q, q⟩

/-- The tags of the waves that rank 0 issues by these messages. -/
def issues (out : List (Link c × MsgInfo c)) : List ℤ :=
  (out.filterMap fun m => if m.1 = waveLink c.leader then some m.2 else none).map MsgInfo.tag

/-- The reactors, the tags of all waves that rank 0 has issued, and the tags of
those that each rank has handled. -/
structure WaveState (c : Topology) where
  sync : SyncState c
  issued : List ℤ
  handled : c.Rank → List ℤ

namespace WaveState

variable {bound : c.Rank → ℤ → Bool} {s s' : WaveState c}

def initial : WaveState c := ⟨.initial, [], fun _ => []⟩

/-- A step of the reactors, and what it adds to the history. -/
def step (bound : c.Rank → ℤ → Bool) (s : WaveState c) (a : SyncAction c) :
    Option (WaveState c) :=
  (s.sync.step bound a).map fun sync =>
    match a with
    | .sync p tag =>
      { s with
        sync := sync
        issued := s.issued ++ issues (MPI2Reactor.sync c p tag (s.sync.reactors p)).sends }
    | .deliver p m source =>
      match s.sync.net ⟨m, source, p⟩ with
      | [] => { s with sync := sync }
      | info :: _ =>
        { sync := sync
          issued := s.issued ++ issues (syncCallback c p m info (s.sync.reactors p)).sends
          handled := if m = .SYNC_WAVE then
              Function.update s.handled p (s.handled p ++ [info.tag])
            else s.handled }

/-- The waves as a relay of tags down the tree. -/
def view (s : WaveState c) : Relay.State c.Rank ℤ :=
  ⟨s.handled, fun q => (s.sync.net (waveLink q)).map MsgInfo.tag⟩

/-- The ranks relay the waves that rank 0 issues, and run a callback for each wave
whose tag has one. -/
structure Relayed (bound : c.Rank → ℤ → Bool) (s : WaveState c) : Prop where
  flows : Relay.Flows c.tree s.view
  issued : s.issued = s.handled c.leader ++ s.view.pipe c.leader
  ran : ∀ p, s.sync.ran p = (s.handled p).filter (bound p)

/-! ## What a call sends -/

/-- Where a rank sends when its critical mass is reached. -/
def upLink (p : c.Rank) : Link c := ⟨if p = c.leader then .SYNC_WAVE else .SYNC, p, c.parent p⟩

theorem upLink_eq_waveLink {p q : c.Rank} : upLink p = waveLink q ↔ p = c.leader ∧ q = c.leader := by
  constructor
  · intro h
    obtain ⟨hm, hp, hq⟩ := (Link.mk.injEq ..).mp h
    by_cases hl : p = c.leader
    · subst hl
      exact ⟨rfl, hq.symm.trans c.parent_leader⟩
    · rw [if_neg hl] at hm
      cases hm
  · rintro ⟨rfl, rfl⟩
    simp [upLink, waveLink]

theorem sends_criticalMass {p : c.Rank} {info : MsgInfo c} {r : MPI2Reactor} :
    ∀ m ∈ sendAtCriticalMass c p info r, m.1 = upLink p := by
  intro m hm
  unfold sendAtCriticalMass at hm
  by_cases hfull : r.syncCounters info.tag = some ((c.children p).length + 1)
  · rw [if_pos hfull] at hm
    rw [List.mem_singleton.mp hm]
    rfl
  · rw [if_neg hfull] at hm
    simp at hm

theorem sends_sync {p : c.Rank} {tag : ℤ} {r : MPI2Reactor} :
    ∀ m ∈ (MPI2Reactor.sync c p tag r).sends, m.1 = upLink p := by
  unfold MPI2Reactor.sync
  split
  · simp
  · exact sends_criticalMass

theorem sends_replay {p : c.Rank} {m : Message} {r : MPI2Reactor} :
    ∀ x ∈ (replay c p m r).sends, x.1 = upLink p := by
  unfold replay
  split
  · simp
  · exact sends_sync

/-- Messages to a rank's parent leave the waves on their way to the other ranks alone. -/
theorem waves_of_up {p q : c.Rank} {out : List (Link c × MsgInfo c)}
    (hout : ∀ m ∈ out, m.1 = upLink p) (hq : q ≠ c.leader)
    (net : Fifo.Channels (Link c) (MsgInfo c)) :
    Fifo.pushAll net out (waveLink q) = net (waveLink q) := by
  rw [Fifo.pushAll_apply, List.filterMap_eq_nil_iff.mpr, List.append_nil]
  intro m hm
  rw [if_neg]
  intro h
  exact hq (upLink_eq_waveLink.mp ((hout m hm).symm.trans h)).2

theorem map_tag_pushAll (out : List (Link c × MsgInfo c)) (net : Fifo.Channels (Link c) (MsgInfo c)) :
    (Fifo.pushAll net out (waveLink c.leader)).map MsgInfo.tag =
      (net (waveLink c.leader)).map MsgInfo.tag ++ issues out := by
  rw [Fifo.pushAll_apply, List.map_append, issues]

/-- A wave that is forwarded reaches the stream of each child once. -/
theorem waves_of_forward (p q : c.Rank) (info : MsgInfo c)
    (net : Fifo.Channels (Link c) (MsgInfo c)) :
    Fifo.pushAll net ((c.children p).map fun x => (⟨.SYNC_WAVE, p, x⟩, info)) (waveLink q) =
      net (waveLink q) ++ if q ∈ c.children p then [info] else [] :=
  pushAll_children .SYNC_WAVE p q info net

theorem issues_append (out out' : List (Link c × MsgInfo c)) :
    issues (out ++ out') = issues out ++ issues out' := by
  simp [issues]

/-- Only rank 0 sends to itself, and not by forwarding. -/
theorem issues_forward (p : c.Rank) (info : MsgInfo c) :
    issues ((c.children p).map fun q => (⟨.SYNC_WAVE, p, q⟩, info)) = [] := by
  rw [issues, List.map_eq_nil_iff, List.filterMap_eq_nil_iff]
  intro m hm
  obtain ⟨q, hq, rfl⟩ := List.mem_map.mp hm
  rw [if_neg]
  intro h
  obtain ⟨-, -, hleader⟩ := (Link.mk.injEq ..).mp h
  exact (c.mem_children.mp hq).1 hleader

/-! ## What a step does to the waves -/

/-- A call that only reports to the parent: what it issues joins the stream of
rank 0 to itself, and no other stream of waves changes. -/
theorem Relayed.report (h : Relayed bound s) {p : c.Rank} {out : List (Link c × MsgInfo c)}
    (hout : ∀ m ∈ out, m.1 = upLink p) {net : Fifo.Channels (Link c) (MsgInfo c)}
    (hnet : ∀ q, net (waveLink q) = s.sync.net (waveLink q))
    (hnet' : s'.sync.net = Fifo.pushAll net out) (hran : s'.sync.ran = s.sync.ran)
    (hissued : s'.issued = s.issued ++ issues out) (hhandled : s'.handled = s.handled) :
    Relayed bound s' := by
  refine ⟨h.flows.congr hhandled fun q hq => ?_, ?_, fun p => ?_⟩
  · simp only [view]
    rw [hnet', waves_of_up hout hq, hnet]
  · simp only [view]
    rw [hissued, h.issued, hhandled, hnet', map_tag_pushAll, hnet, List.append_assoc]
    rfl
  · rw [hran, hhandled, h.ran]

/-- A rank that handles a wave passes it on, whatever queued sync it then starts. -/
theorem Relayed.wave (h : Relayed bound s) {p : c.Rank} {info : MsgInfo c}
    {rest : List (MsgInfo c)} (hpop : s.sync.net (waveLink p) = info :: rest)
    {out : List (Link c × MsgInfo c)} (hout : ∀ m ∈ out, m.1 = upLink p)
    (hnet' : s'.sync.net = Fifo.pushAll (Function.update s.sync.net (waveLink p) rest)
      ((c.children p).map (fun q => (⟨.SYNC_WAVE, p, q⟩, info)) ++ out))
    (hran : s'.sync.ran = Function.update s.sync.ran p
      (s.sync.ran p ++ (callback c (bound p) .SYNC_WAVE info).toList))
    (hissued : s'.issued = s.issued ++ issues out)
    (hhandled : s'.handled = Function.update s.handled p (s.handled p ++ [info.tag])) :
    Relayed bound s' := by
  have hinj : ∀ {q r : c.Rank}, waveLink q = waveLink r → q = r := fun h =>
    ((Link.mk.injEq ..).mp h).2.2
  -- what a stream holds before the replayed sync reports to the parent
  have hmid : ∀ q, Fifo.pushAll (Function.update s.sync.net (waveLink p) rest)
      ((c.children p).map fun q => (⟨.SYNC_WAVE, p, q⟩, info)) (waveLink q) =
        (if q = p then rest else s.sync.net (waveLink q)) ++
          if q ∈ c.children p then [info] else [] := by
    intro q
    rw [waves_of_forward]
    by_cases hq : q = p
    · subst hq
      rw [Function.update_self, if_pos rfl]
    · rw [Function.update_of_ne fun he => hq (hinj he), if_neg hq]
  have happend : s'.sync.net = Fifo.pushAll (Fifo.pushAll (Function.update s.sync.net (waveLink p)
      rest) ((c.children p).map fun q => (⟨.SYNC_WAVE, p, q⟩, info))) out := by
    rw [hnet', Fifo.pushAll, Fifo.pushAll, Fifo.pushAll, List.foldl_append]
  have hpipe : ∀ q, q ≠ c.leader → s'.view.pipe q =
      ((if q = p then rest else s.sync.net (waveLink q)) ++
        if q ∈ c.children p then [info] else []).map MsgInfo.tag := by
    intro q hq
    simp only [view]
    rw [happend, waves_of_up hout hq, hmid]
  have hself : p ∉ c.children p := fun hp =>
    (c.mem_children.mp hp).1 (SyncState.parent_eq_self.mp (c.mem_children.mp hp).2)
  refine ⟨h.flows.pass (p := p) (x := info.tag) ⟨hhandled, fun hp => ?_, fun q hq => ?_,
    fun q hq hne hchild => ?_⟩, ?_, fun q => ?_⟩
  · rw [hpipe p hp, if_pos rfl, if_neg hself]
    simp [view, hpop]
  · have hchild : q ∈ c.children p := c.mem_tree_children.mp hq
    have hne : q ≠ p := fun he => hself (he ▸ hchild)
    rw [hpipe q (c.mem_children.mp hchild).1, if_neg hne, if_pos hchild]
    simp [view]
  · rw [hpipe q hq, if_neg hne, if_neg fun hq => hchild (c.mem_tree_children.mpr hq)]
    simp [view]
  · have hleader : c.leader ∉ c.children p := fun hm => (c.mem_children.mp hm).1 rfl
    simp only [view]
    rw [hissued, h.issued, hhandled, happend, map_tag_pushAll, hmid, if_neg hleader]
    by_cases hp : c.leader = p
    · subst hp
      simp [view, hpop]
    · simp [view, hp]
  · rw [hran, hhandled]
    by_cases hq : q = p
    · subst hq
      rw [Function.update_self, Function.update_self, List.filter_append, h.ran]
      unfold callback
      by_cases hb : bound q info.tag <;> simp [hb]
    · rw [Function.update_of_ne hq, Function.update_of_ne hq, h.ran]

theorem Relayed.step (h : Relayed bound s) {a : SyncAction c} (hs : s.step bound a = some s') :
    Relayed bound s' := by
  obtain ⟨sync, hsync, rfl⟩ := Option.map_eq_some_iff.mp hs
  cases a with
  | sync p tag =>
    obtain rfl := Option.some.inj hsync
    exact h.report sends_sync (fun _ => rfl) rfl rfl rfl rfl
  | deliver p m source =>
    have hdeliver : s.sync.deliver p bound m source = some sync := hsync
    unfold SyncState.deliver at hdeliver
    split_ifs at hdeliver with hlisten
    obtain ⟨⟨info, net⟩, hpop, rfl⟩ := Option.map_eq_some_iff.mp hdeliver
    obtain ⟨rest, hhead, rfl⟩ := Fifo.pop_eq_some.mp hpop
    simp only [hhead]
    rcases hlisten with ⟨rfl, -⟩ | ⟨rfl, rfl⟩
    · -- a child's contribution
      have hcall : syncCallback c p .SYNC info (s.sync.reactors p) =
          ⟨{ s.sync.reactors p with
              syncCounters := countUp (s.sync.reactors p).syncCounters info.tag },
            sendAtCriticalMass c p info { s.sync.reactors p with
              syncCounters := countUp (s.sync.reactors p).syncCounters info.tag }⟩ := by
        rw [syncCallback, if_neg (by decide)]
      rw [hcall]
      refine h.report sends_criticalMass (fun q => ?_) rfl ?_ rfl ?_
      · have hne : waveLink q ≠ ⟨.SYNC, source, p⟩ := by simp [waveLink]
        exact Function.update_of_ne hne rest s.sync.net
      · simp [SyncState.after, callback]
      · simp
    · -- a wave
      have hcall : syncCallback c p .SYNC_WAVE info (s.sync.reactors p) =
          ⟨(replay c p .SYNC_WAVE (reset info.tag (s.sync.reactors p))).reactor,
            (c.children p).map (fun q => (⟨.SYNC_WAVE, p, q⟩, info)) ++
              (replay c p .SYNC_WAVE (reset info.tag (s.sync.reactors p))).sends⟩ := by
        rw [syncCallback, if_pos rfl]
      rw [hcall]
      refine h.wave hhead sends_replay rfl rfl ?_ (by simp)
      rw [issues_append, issues_forward, List.nil_append]

/-! ## Whole runs -/

theorem relayed_initial : Relayed bound (initial : WaveState c) :=
  ⟨fun _ _ => rfl, rfl, fun _ => rfl⟩

/-- No rank handles waves in another order than rank 0 issued them. -/
theorem Relayed.handled_le_issued (h : Relayed bound s) (p : c.Rank) : s.handled p <+: s.issued := by
  rw [h.issued]
  exact (h.flows.le_root p).trans (List.prefix_append _ _)

/-- Of two ranks, one has run the callbacks that both have bound in the order of the other. -/
theorem Relayed.comparable (h : Relayed bound s) (p q : c.Rank) :
    (s.sync.ran p).filter (bound q) <+: (s.sync.ran q).filter (bound p) ∨
      (s.sync.ran q).filter (bound p) <+: (s.sync.ran p).filter (bound q) := by
  have hcomm : (fun t => bound q t && bound p t) = fun t => bound p t && bound q t :=
    funext fun t => Bool.and_comm _ _
  rw [h.ran, h.ran, List.filter_filter, List.filter_filter, hcomm]
  exact (h.flows.comparable p q).imp (fun h => h.filter _) (fun h => h.filter _)

/-- In every run each rank has run the callbacks of the first waves that rank 0
issued, in that order, one for each whose tag it has bound: all of them, where
every tag is bound. So no two ranks run two callbacks in opposite orders. -/
theorem callbacks_follow_waves {as : List (SyncAction c)}
    (hr : StepSystem.run (step bound) initial as = some s) :
    (∀ p, ∃ waves, waves <+: s.issued ∧ s.sync.ran p = waves.filter (bound p)) ∧
      (∀ p, (∀ tag ∈ s.issued, bound p tag) → s.sync.ran p <+: s.issued) ∧
      ∀ p q, (s.sync.ran p).filter (bound q) <+: (s.sync.ran q).filter (bound p) ∨
        (s.sync.ran q).filter (bound p) <+: (s.sync.ran p).filter (bound q) := by
  have hrel : Relayed bound s :=
    StepSystem.run_invariant (fun _ _ _ h hs => h.step hs) relayed_initial hr
  refine ⟨fun p => ⟨s.handled p, hrel.handled_le_issued p, hrel.ran p⟩, fun p hbound => ?_,
    hrel.comparable⟩
  have hall : (s.handled p).filter (bound p) = s.handled p := List.filter_eq_self.mpr
    fun tag htag => hbound tag ((hrel.handled_le_issued p).subset htag)
  rw [hrel.ran, hall]
  exact hrel.handled_le_issued p

theorem callbacks_follow_waves_pairRound : ∃ s,
    StepSystem.run (step fun _ _ => true) initial SyncState.pairRound = some s ∧
      s.issued = [2] ∧ s.sync.ran SyncState.other = [2] ∧ s.sync.ran SyncState.other <+: s.issued := by
  obtain ⟨s, hs⟩ := Option.isSome_iff_exists.mp (by decide :
    (StepSystem.run (step fun _ _ => true) initial SyncState.pairRound).isSome)
  have hend : (StepSystem.run (step fun _ _ => true) initial SyncState.pairRound).map
      (fun s => (s.issued, s.sync.ran SyncState.other)) = some ([2], [2]) := by
    decide
  rw [hs] at hend
  obtain ⟨hissued, hran⟩ := Prod.mk.inj (Option.some.inj hend)
  exact ⟨s, hs, hissued, hran, (callbacks_follow_waves hs).2.1 _ fun _ _ => rfl⟩

end WaveState
end Damaris.Comm
