import Mathlib.Tactic
import Damaris.Server.CommitNames
import Damaris.Server.Cut

/-!
# The blocks that a server holds

A client writes to its own domains, in its own iteration, and is not listened to between the end of
an iteration and its update. With a garbage collector that runs at every update, a server therefore
holds blocks of one iteration at a time.
-/
set_option linter.unusedSectionVars false

namespace Damaris.Iteration

open Damaris.Data Damaris.Msg Damaris.Comm

variable {c : Topology} {m : ℕ} {G : Type*} {config : ℤ → Option (Bool × Layout)}

/-! ## What messages and updates are about -/

/-- A message is about a block of a client's domains. -/
def InDomains (numDomains : ℤ) : Sent G → Prop
  | .write wr | .commit wr => 0 ≤ wr.block ∧ wr.block < numDomains
  | _ => True

theorem numDomains_request (client : Client G) (req : Client.Request G) :
    (client.request req).1.numDomains = client.numDomains := by
  cases req with
  | write id block buffer =>
    simp only [Client.request, Client.write]
    split
    · rfl
    · split
      · rfl
      · split <;> rfl
  | alloc id block buffer =>
    simp only [Client.request, Client.alloc]
    split
    · rfl
    · split <;> rfl
  | commit id block iteration =>
    simp only [Client.request, Client.commit]
    split
    · rfl
    · split <;> rfl
  | clear id block iteration =>
    simp only [Client.request, Client.clear]
    split
    · rfl
    · split <;> rfl
  | setPosition id block p =>
    simp only [Client.request, Client.setPosition]
    split <;> rfl
  | _ => rfl

theorem inDomains_write (client : Client G) (id block : ℤ) (buffer : Option (Buffer Unit G)) :
    ∀ wr ∈ (client.write id block buffer).2.2, 0 ≤ wr.block ∧ wr.block < client.numDomains := by
  intro wr hwr
  unfold Client.write at hwr
  split at hwr
  · exact absurd hwr.symm (Option.some_ne_none wr)
  · next v hs =>
    split at hwr
    · exact absurd hwr.symm (Option.some_ne_none wr)
    · simp only at hwr
      split at hwr
      · exact absurd hwr.symm (Option.some_ne_none wr)
      · obtain rfl := Option.some.inj hwr
        exact Client.search_valid hs

theorem inDomains_commit (client : Client G) (id block iteration : ℤ) :
    ∀ wr ∈ (client.commit id block iteration).2.2, 0 ≤ wr.block ∧ wr.block < client.numDomains := by
  intro wr hwr
  unfold Client.commit at hwr
  split at hwr
  · exact absurd hwr.symm (Option.some_ne_none wr)
  · next v hs =>
    split at hwr
    · exact absurd hwr.symm (Option.some_ne_none wr)
    · obtain rfl := Option.some.inj hwr
      exact Client.search_valid hs

theorem inDomains_request (client : Client G) (req : Client.Request G) :
    ∀ op ∈ (client.request req).2, InDomains client.numDomains op := by
  intro op hop
  cases req with
  | write id block buffer =>
    obtain ⟨wr, hwr, rfl⟩ := Option.map_eq_some_iff.mp hop
    exact inDomains_write client id block buffer wr hwr
  | commit id block iteration =>
    obtain ⟨wr, hwr, rfl⟩ := Option.map_eq_some_iff.mp hop
    exact inDomains_commit client id block iteration wr hwr
  | clear id block iteration =>
    obtain ⟨m, -, rfl⟩ := Option.map_eq_some_iff.mp hop
    trivial
  | alloc id block buffer => exact absurd hop.symm (Option.some_ne_none op)
  | setPosition id block p => exact absurd hop.symm (Option.some_ne_none op)
  | _ =>
    obtain rfl := Option.some.inj hop
    trivial

/-- A message that writes a block is one of the client's, and is about that block. -/
theorem mem_of_published {ops : List (Sent G)} {id k bid : ℤ} {wr : WriteMessage (Option G)}
    (h : published ops id k bid = some wr) :
    (.write wr ∈ ops ∨ .commit wr ∈ ops) ∧ wr.iteration = k := by
  obtain ⟨op, hop, hsome⟩ := List.exists_of_findSome?_eq_some h
  cases op with
  | write w =>
    simp only at hsome
    split_ifs at hsome with hw
    obtain rfl := Option.some.inj hsome
    exact ⟨.inl hop, hw.2.1⟩
  | commit w =>
    simp only at hsome
    split_ifs at hsome with hw
    obtain rfl := Option.some.inj hsome
    exact ⟨.inr hop, hw.2.1⟩
  | _ => exact absurd hsome.symm (Option.some_ne_none wr)

theorem inDomains_of_published {numDomains : ℤ} {ops : List (Sent G)}
    (h : ∀ op ∈ ops, InDomains numDomains op) {id k bid : ℤ} {wr : WriteMessage (Option G)}
    (hwr : published ops id k bid = some wr) : 0 ≤ wr.block ∧ wr.block < numDomains := by
  rcases (mem_of_published hwr).1 with hop | hop
  · exact h _ hop
  · exact h _ hop

/-- The garbage collector is among the actions of an update. -/
def Action.Collects : Action c m G → Prop
  | .deliver _ _ _ gc => gc = true
  | _ => True

instance : (a : Action c m G) → Decidable a.Collects
  | .deliver _ _ _ gc => inferInstanceAs (Decidable (gc = true))
  | .call _ _ | .enter _ | .leave _ | .handle _ _ _ => .isTrue trivial

namespace State

variable {s s' : State c m G} {source : Peer c m ↪ ℤ}

/-- What a step adds to the messages of a client. -/
theorem sent_step {a : Action c m G} (h : s.step a = some s') (x : Peer c m) :
    (∃ req, (s'.clients x) = ((s.clients x).request req).1 ∧
        s'.sent x = s.sent x ++ ((s.clients x).request req).2.toList) ∨
      (∃ e, s'.clients x = (s.clients x).startNextIteration ∧
        s'.sent x = s.sent x ++ [.endIteration e]) ∨
      s'.clients x = s.clients x ∧ s'.sent x = s.sent x := by
  cases a with
  | call y req =>
    simp only [step] at h
    split_ifs at h
    obtain rfl := Option.some.inj h
    by_cases hxy : x = y
    · subst hxy
      exact .inl ⟨req, by simp, by simp [sent]⟩
    · exact .inr (.inr ⟨by simp [hxy], by simp [sent, hxy]⟩)
  | enter y =>
    simp only [step] at h
    split_ifs at h
    obtain rfl := Option.some.inj h
    exact .inr (.inr ⟨rfl, rfl⟩)
  | leave y =>
    simp only [step] at h
    split_ifs at h
    obtain rfl := Option.some.inj h
    by_cases hxy : x = y
    · subst hxy
      exact .inr (.inl ⟨s.failed (s.left x), by simp, by simp [sent]⟩)
    · exact .inr (.inr ⟨by simp [hxy], by simp [sent, hxy]⟩)
  | handle p i gc =>
    cases hq : s.queue (p, i) with
    | nil => simp [step, hq] at h
    | cons op rest =>
      simp only [step, hq] at h
      split_ifs at h
      obtain ⟨⟨sv, sync⟩, hx, rfl⟩ := Option.map_eq_some_iff.mp h
      obtain ⟨one, hcounts, -⟩ := Server.onHeader_counts hx
      exact .inr (.inr ⟨rfl, sent_setServer hq hcounts x⟩)
  | deliver p message src gc =>
    simp only [step] at h
    split_ifs at h
    obtain ⟨sync, hsync, hs'⟩ := Option.map_eq_some_iff.mp h
    refine .inr (.inr ?_)
    split_ifs at hs' with hran
    · subst hs'
      exact ⟨rfl, rfl⟩
    · subst hs'
      refine ⟨rfl, ?_⟩
      by_cases hx : x.1 = p
      · subst hx
        simp [sent, Server.endOfIterationCallback]
      · simp [sent, hx]

/-- The messages are about blocks of the domains, and the updates about the variables of the
configuration. -/
structure Bounded (config : ℤ → Option (Bool × Layout)) (numDomains : ℤ) (s : State c m G) : Prop where
  clients : ∀ x, (s.clients x).numDomains = numDomains
  domains : ∀ x, ∀ op ∈ s.sent x, InDomains numDomains op
  updates : ∀ p, ∀ u ∈ (s.servers p).updates, u.2.Configured config

theorem Bounded.step {numDomains : ℤ} (h : s.Bounded config numDomains) (hcut : s.CutInv config source)
    {a : Action c m G} (hs : s.step a = some s') : s'.Bounded config numDomains := by
  refine ⟨fun x => ?_, fun x op hop => ?_, fun p u hu => ?_⟩
  · rcases sent_step hs x with ⟨req, hclient, -⟩ | ⟨e, hclient, -⟩ | ⟨hclient, -⟩
    · rw [hclient, numDomains_request, h.clients]
    · rw [hclient]
      exact h.clients x
    · rw [hclient, h.clients]
  · rcases sent_step hs x with ⟨req, -, hsent⟩ | ⟨e, -, hsent⟩ | ⟨-, hsent⟩
    · rw [hsent, List.mem_append, Option.mem_toList] at hop
      rcases hop with hop | hop
      · exact h.domains x op hop
      · have hdomains := inDomains_request (s.clients x) req op hop
        rwa [h.clients] at hdomains
    · rw [hsent, List.mem_append, List.mem_singleton] at hop
      rcases hop with hop | rfl
      · exact h.domains x op hop
      · trivial
    · exact h.domains x op (hsent ▸ hop)
  · rcases servers_step hs p with hsame | ⟨i, gc, op, rest, sync, -, -, -, hx⟩ |
      ⟨message, src, gc, sync, -, -, -, -, hcallback⟩
    · exact h.updates p u (hsame ▸ hu)
    · obtain ⟨one, hcounts, -⟩ := Server.onHeader_counts hx
      exact h.updates p u (hcounts.updates ▸ hu)
    · rw [hcallback, Server.endOfIterationCallback, List.mem_append, List.mem_singleton] at hu
      rcases hu with hu | rfl
      · exact h.updates p u hu
      · exact (hcut.filed p).configured

theorem bounded_initial (config : ℤ → Option (Bool × Layout)) (source : Peer c m ↪ ℤ) (numDomains : ℤ) :
    (initial config source numDomains : State c m G).Bounded config numDomains :=
  ⟨fun _ => rfl, fun _ _ hop => absurd hop List.not_mem_nil, fun _ _ hu => absurd hu List.not_mem_nil⟩

/-! ## One iteration at a time -/

/-- A client that has just ended an iteration has written to it and to earlier ones. -/
theorem lt_of_published {ops : List (Sent G)} (hdated : Dated config 0 ops)
    (hlast : ops.getLast? = some (.endIteration false)) {id k bid : ℤ}
    (hne : published ops id k bid ≠ none) : k < (ends ops).length := by
  obtain ⟨pre, rfl⟩ := List.getLast?_eq_some_iff.mp hlast
  have hnone : published [(.endIteration false : Sent G)] id k bid = none := rfl
  rw [published_append, hnone, Option.or_none] at hne
  have hbetween := between_of_published (dated_append.mp hdated).1 hne
  rw [ends_append, List.length_append, ends_endIteration, List.length_singleton]
  omega

/-- No block is of a later iteration than the one that is processed next. -/
theorem CutInv.notLater (h : s.CutInv config source) {p : c.Rank} {id : ℤ} {v : Variable G}
    (hv : (s.servers p).vars id = some v) (htv : v.timeVarying = true) :
    ∀ b ∈ v.blocks, b.iteration ≤ (s.servers p).updates.length := by
  intro b hb
  by_contra hlate
  have hfiled := h.filed p
  obtain ⟨i, hi⟩ := hfiled.owned id v hv htv b hb
  have hlook := hfiled.filed id v hv htv i b.iteration b.id (by omega)
  have hfind : look v (source (p, i), b.iteration, b.id) = some (plain b) := by
    rw [look, KeyedStore.find_eq_some.mpr ⟨hb, by rw [Block.key, hi]⟩, Option.map_some]
  obtain ⟨wr, hwr, -⟩ := Option.map_eq_some_iff.mp (hlook.symm.trans hfind)
  have hne : published ((s.servers p).handled i) id b.iteration b.id ≠ none :=
    hwr ▸ Option.some_ne_none wr
  have hdated : Dated config 0 ((s.servers p).handled i) := (dated_append.mp (h.dated (p, i))).1
  have hbetween := between_of_published hdated hne
  have hrounds := rounds_eq h.errorless (s.servers p).lastIteration
  have hended : (ends ((s.servers p).handled i)).length = (s.servers p).endedBy i := rfl
  have hquiet : (s.servers p).armed i = 0 → b.iteration < (s.servers p).endedBy i := fun harmed =>
    lt_of_published hdated (h.base.quiet p i harmed) hne
  rcases h.base.listening p with ⟨hlen, harmed⟩ | ⟨hlen, harmed⟩
  · rcases (h.base.counted p).between i with he | he
    · omega
    · have hzero := harmed i
      rw [if_pos ⟨he, failed_eq_false h.errorless _⟩] at hzero
      have hlt := hquiet hzero
      omega
  · have hlt := hquiet (harmed i).1
    have he := (harmed i).2
    omega

/-- No block is of an iteration that has been processed. -/
def Collected (s : State c m G) : Prop :=
  ∀ p id v, (s.servers p).vars id = some v → v.timeVarying = true →
    ∀ b ∈ v.blocks, ((s.servers p).updates.length : ℤ) ≤ b.iteration

theorem mem_collect {vs : Variables G} {iteration id : ℤ} {v' : Variable G}
    (hv' : collect vs iteration id = some v') (htv : v'.timeVarying = true)
    (hpos : ∀ v, vs id = some v → v.timeVarying = true → ∀ b ∈ v.blocks, -1 ≤ b.iteration) :
    ∀ b ∈ v'.blocks, iteration < b.iteration := by
  obtain ⟨v, hv, rfl⟩ := Option.map_eq_some_iff.mp hv'
  by_cases hvarying : v.timeVarying = true
  · have hnonneg := hpos v hv hvarying
    have hdefined : ¬ ∃ b ∈ v.blocks.elems, iteration < b.iteration ∧ b.iteration < -1 := by
      rintro ⟨b, hb, -, hlt⟩
      exact absurd (hnonneg b hb) (not_le.mpr hlt)
    rw [if_pos hvarying, Variable.clearUpToIteration, if_neg hdefined, Option.getD_some]
    intro b hb
    obtain ⟨hmem, hkeep⟩ := KeyedStore.mem_filter.mp hb
    have hpast := of_decide_eq_true hkeep
    have hlow := hnonneg b hmem
    omega
  · rw [if_neg hvarying] at htv
    exact absurd htv hvarying

/-- A message that a server handles is about the iteration that it processes next, or a later one. -/
theorem CutInv.fits_handle (h : s.CutInv config source) {p : c.Rank} {i : Fin m} {op : Sent G}
    {rest : List (Sent G)} (hq : s.queue (p, i) = op :: rest) (harmed : (s.servers p).armed i ≠ 0) :
    ∃ n : ℕ, (s.servers p).updates.length ≤ n ∧ Fits config n op := by
  have hdated := h.dated (p, i)
  rw [sent, hq] at hdated
  have hfits := (dated_append.mp hdated).2.1
  refine ⟨_, ?_, hfits⟩
  obtain ⟨hlen, -⟩ := (h.base.listening p).armed_eq_one harmed
  have hrounds := rounds_eq h.errorless (s.servers p).lastIteration
  have hended : (ends ((s.servers (p, i).1).handled (p, i).2)).length = (s.servers p).endedBy i := rfl
  rcases (h.base.counted p).between i with he | he <;> omega

/-- When an update runs, its iteration is the last one that has ended. -/
theorem CutInv.lastIteration_eq (h : s.CutInv config source) {p : c.Rank}
    (hpending : (s.servers p).updates.length < s.rounds (s.servers p).lastIteration) :
    (s.servers p).lastIteration = (s.servers p).updates.length + 1 := by
  obtain ⟨hlen, -⟩ := (h.base.listening p).resolve_left fun hl => absurd hl.1 hpending.ne
  rw [hlen, rounds_eq h.errorless]

theorem Collected.step (hc : s.Collected) (h : s.CutInv config source) {a : Action c m G}
    (ha : a.Collects) (hs : s.step a = some s') : s'.Collected := by
  intro p id v' hv' htv b hb
  rcases servers_step hs p with hsame | ⟨i, gc, op, rest, sync, -, hq, harmed, hx⟩ |
    ⟨message, src, gc, sync, rfl, -, hsync, hran, hcallback⟩
  · rw [hsame] at hv' ⊢
    exact hc p id v' hv' htv b hb
  · obtain ⟨one, hcounts, -⟩ := Server.onHeader_counts hx
    have hop : op ≠ .endIteration true := by
      rintro rfl
      have hflag := (h.base.agreed.flag hq).1
      rw [failed_eq_false h.errorless] at hflag
      exact absurd hflag (by decide)
    obtain ⟨n, hn, hfits⟩ := h.fits_handle hq harmed
    have hreceive : receive (s.servers p).vars _ op = _ := Server.onHeader_vars hop hx
    obtain ⟨v, hv, hg⟩ := receive_gains (h.filed p).configured hfits hreceive hv'
    have hvarying : v.timeVarying = true := hg.timeVarying ▸ htv
    have hlook := hg.look hvarying ((h.filed p).unmoved id v hv) b.key
    have hfind : look v' b.key = some (plain b) := by
      rw [look, KeyedStore.find_eq_some.mpr ⟨hb, rfl⟩, Option.map_some]
    rw [hfind] at hlook
    rw [hcounts.updates]
    rcases Option.or_eq_some_iff.mp hlook.symm with hold | ⟨-, hnew⟩
    · obtain ⟨b₀, hb₀, -⟩ := Option.map_eq_some_iff.mp hold
      obtain ⟨hmem, hkey⟩ := KeyedStore.find_eq_some.mp hb₀
      have hit : b₀.iteration = b.iteration := congrArg (fun k => k.2.1) hkey
      rw [← hit]
      exact hc p id v hv hvarying b₀ hmem
    · -- the message's block
      have hit : b.iteration = n := by
        by_contra hne
        have hnone : published [op] id b.key.2.1 b.key.2.2 = none := published_singleton hfits hne
        rw [gained, hnone, Option.map_none, ite_self] at hnew
        exact absurd hnew.symm (Option.some_ne_none _)
      omega
  · obtain rfl : gc = true := ha
    have hlast := h.lastIteration_eq (h.base.pending hsync hran)
    rw [hcallback] at hv' ⊢
    have hlate := mem_collect hv' htv (fun v hv hvarying b hb =>
      (Int.le_trans (by omega) (hc p id v hv hvarying b hb) : (-1 : ℤ) ≤ b.iteration)) b hb
    rw [Server.endOfIterationCallback, List.length_append, List.length_singleton]
    rw [hlast] at hlate
    push_cast at hlate ⊢
    omega

/-- What the servers hold: blocks of the iteration that is processed next, at most one for each of
their clients' domains. -/
def Resident (numDomains : ℤ) (s : State c m G) : Prop :=
  ∀ p id v, (s.servers p).vars id = some v → v.timeVarying = true →
    (∀ b ∈ v.blocks, b.iteration = (s.servers p).updates.length ∧
      (∃ i, b.source = (s.clients (p, i)).source) ∧ 0 ≤ b.id ∧ b.id < numDomains) ∧
    v.blocks.elems.length ≤ m * numDomains.toNat

theorem CutInv.resident (h : s.CutInv config source) {numDomains : ℤ} (hb : s.Bounded config numDomains)
    (hc : s.Collected) : s.Resident numDomains := by
  intro p id v hv htv
  have hblocks : ∀ b ∈ v.blocks, b.iteration = (s.servers p).updates.length ∧
      (∃ i, b.source = source (p, i)) ∧ 0 ≤ b.id ∧ b.id < numDomains := by
    intro b hbv
    have hit : b.iteration = (s.servers p).updates.length :=
      le_antisymm (h.notLater hv htv b hbv) (hc p id v hv htv b hbv)
    obtain ⟨i, hi⟩ := (h.filed p).owned id v hv htv b hbv
    have hlook := (h.filed p).filed id v hv htv i b.iteration b.id hit.ge
    have hfind : look v (source (p, i), b.iteration, b.id) = some (plain b) := by
      rw [look, KeyedStore.find_eq_some.mpr ⟨hbv, by rw [Block.key, hi]⟩, Option.map_some]
    obtain ⟨wr, hwr, hmade⟩ := Option.map_eq_some_iff.mp (hlook.symm.trans hfind)
    have hdomain := inDomains_of_published
      (fun op hop => hb.domains (p, i) op (List.mem_append_left _ hop)) hwr
    have hid : wr.block = b.id := congrArg Block.id hmade
    exact ⟨hit, ⟨i, hi⟩, hid ▸ hdomain⟩
  refine ⟨fun b hbv => ?_, ?_⟩
  · obtain ⟨hit, ⟨i, hi⟩, hdomain⟩ := hblocks b hbv
    exact ⟨hit, ⟨i, hi.trans (h.sources (p, i)).symm⟩, hdomain⟩
  · have hkeys : ∀ b ∈ v.blocks, b.key ∈ (Finset.univ ×ˢ Finset.Ico 0 numDomains).image
        fun x : Fin m × ℤ => (source (p, x.1), ((s.servers p).updates.length : ℤ), x.2) := by
      intro b hbv
      obtain ⟨hit, ⟨i, hi⟩, hlow, hhigh⟩ := hblocks b hbv
      refine Finset.mem_image.mpr ⟨(i, b.id), ?_, by rw [Block.key, hi, hit]⟩
      exact Finset.mem_product.mpr ⟨Finset.mem_univ i, Finset.mem_Ico.mpr ⟨hlow, hhigh⟩⟩
    calc v.blocks.elems.length
        ≤ _ := KeyedStore.length_le_card hkeys
      _ ≤ (Finset.univ ×ˢ Finset.Ico 0 numDomains : Finset (Fin m × ℤ)).card := Finset.card_image_le
      _ = m * numDomains.toNat := by simp

/-- In a run without errors, with the garbage collector in every update, a server never holds more
of a variable that varies in time than one iteration. -/
theorem resident_of_collected (config : ℤ → Option (Bool × Layout)) (source : Peer c m ↪ ℤ)
    (numDomains : ℤ) {as : List (Action c m G)}
    (hg : StepSystem.Guarded step (fun s a => s.Errorless a ∧ a.Collects)
      (initial config source numDomains) as) :
    StepSystem.Always step (Resident numDomains) (initial config source numDomains) as := by
  refine StepSystem.Guarded.always
    (I := fun s => s.CutInv config source ∧ s.Bounded config numDomains ∧ s.Collected)
    (fun s a s' hI hga hs => ⟨hI.1.step hga.1 hs, hI.2.1.step hI.1 hs, hI.2.2.step hI.1 hga.2 hs⟩)
    (fun s hI => hI.1.resident hI.2.1 hI.2.2)
    ⟨cutInv_initial config source numDomains, bounded_initial config source numDomains, ?_⟩ hg
  intro p id v hv _ b hb
  obtain ⟨x, -, rfl⟩ := Option.map_eq_some_iff.mp hv
  exact absurd hb (KeyedStore.notMem_empty b)

/-- The number of blocks of the only variable on the only server. -/
def Two.stored (s : Two) : Option ℕ := ((s.servers only).vars 0).map fun v => v.blocks.elems.length

/-- The client's block is collected at the end of the iteration. -/
def oneWriteCollected : List (Action SyncState.alone 2 Unit) :=
  oneWrite.dropLast ++ [.deliver only .SYNC_WAVE only true]

theorem resident_oneWriteCollected :
    (StepSystem.run step twoInitial oneWrite.dropLast).map Two.stored = some (some 1) ∧
      (StepSystem.run step twoInitial oneWriteCollected).map Two.stored = some (some 0) ∧
        StepSystem.Always step (Resident 1) twoInitial oneWriteCollected :=
  ⟨by decide +kernel, by decide +kernel,
    resident_of_collected Variables.oneVariable rank 1 (by decide +kernel)⟩

end State
end Damaris.Iteration
