import Mathlib.Tactic
import Damaris.Server.Completeness
import Damaris.Server.Publishing

/-!
# A consistent cut at the end of every iteration

Without errors, all servers process the same iterations in the same order, and
each of them sees of every iteration the blocks that its clients wrote in it.
-/
set_option linter.unusedSectionVars false

namespace Damaris.Iteration

open Damaris.Data Damaris.Msg Damaris.Comm

variable {c : Topology} {m : ℕ} {G : Type*} {config : ℤ → Option (Bool × Layout)}

/-- What the update of iteration `k` sees in a variable: the blocks of this
iteration are those that the clients `i`, of sources `source i`, have written in
it, each as in the first message that wrote it, and no block is of a later one. -/
structure Sees (source : Fin m → ℤ) (sent : Fin m → List (Sent G)) (k id : ℤ) (v : Variable G) :
    Prop where
  notLater : ∀ b ∈ v.blocks, b.iteration ≤ k
  written : ∀ b ∈ v.blocks, b.iteration = k →
    ∃ i wr, published (sent i) id k b.id = some wr ∧ plain b = made v.layout (source i) wr
  complete : ∀ i bid wr, published (sent i) id k bid = some wr →
    ∃ b ∈ v.blocks, plain b = made v.layout (source i) wr

/-- More messages make no difference unless they write to the iteration. -/
theorem Sees.congr {source : Fin m → ℤ} {sent sent' : Fin m → List (Sent G)} {k id : ℤ}
    {v : Variable G} (h : Sees source sent k id v)
    (hsent : ∀ i bid, published (sent' i) id k bid = published (sent i) id k bid) :
    Sees source sent' k id v := by
  refine ⟨h.notLater, fun b hb hk => ?_, fun i bid wr hwr => ?_⟩
  · obtain ⟨i, wr, hwr, hb⟩ := h.written b hb hk
    exact ⟨i, wr, (hsent i b.id).trans hwr, hb⟩
  · exact h.complete i bid wr ((hsent i bid).symm.trans hwr)

namespace Server

variable {sv sv' : Server m G} {source : Fin m → ℤ} {i : Fin m}

/-- The blocks of the iterations that are not yet processed are those that the
handled messages describe. -/
structure Filed (config : ℤ → Option (Bool × Layout)) (source : Fin m → ℤ) (sv : Server m G) :
    Prop where
  configured : sv.vars.Configured config
  unmoved : ∀ id v, sv.vars id = some v → v.positions = fun _ => none
  owned : ∀ id v, sv.vars id = some v → v.timeVarying = true → ∀ b ∈ v.blocks, ∃ i, b.source = source i
  filed : ∀ id v, sv.vars id = some v → v.timeVarying = true → ∀ i k bid,
    (sv.updates.length : ℤ) ≤ k →
      look v (source i, k, bid) = (published (sv.handled i) id k bid).map (made v.layout (source i))

/-- The variables are changed by the handler only, unless an iteration ends with errors. -/
theorem onHeader_vars {gc sync : Bool} {op : Sent G} {src : ℤ} (hop : op ≠ .endIteration true)
    (h : (sv.complete i).onHeader src i gc op = some (sv', sync)) :
    receive sv.vars src op = some sv'.vars := by
  obtain ⟨vs, hvs, hx⟩ := Option.map_eq_some_iff.mp h
  obtain ⟨rfl, -⟩ := Prod.mk.inj hx
  refine hvs.trans (congrArg some ?_)
  cases op with
  | endIteration e =>
    cases e with
    | true => exact absurd rfl hop
    | false =>
      simp only [startNextIteration]
      split_ifs <;> rfl
  | stop =>
    obtain ⟨requests, stopped, hstop⟩ := onStop_eq { sv.complete i with
      vars := vs, handled := Function.update sv.handled i (sv.handled i ++ [.stop]) } i
    simp only [complete] at hstop
    simp [complete, asyncRecv, Operation.type, hstop]
  | event bcast ev => cases bcast <;> rfl
  | _ => rfl

theorem Filed.onHeader {gc sync : Bool} {op : Sent G} {n : ℤ} (hf : sv.Filed config source)
    (hinj : Function.Injective source) (hop : op ≠ .endIteration true) (hfits : Fits config n op)
    (h : (sv.complete i).onHeader (source i) i gc op = some (sv', sync)) :
    sv'.Filed config source := by
  have hreceive := onHeader_vars hop h
  obtain ⟨one, hcounts, -⟩ := onHeader_counts h
  refine ⟨receive_configured hf.configured hreceive, fun id v' hv' => ?_, fun id v' hv' htv b hb => ?_,
    fun id v' hv' htv j k bid hk => ?_⟩
  · obtain ⟨v, hv, hg⟩ := receive_gains hf.configured hfits hreceive hv'
    rw [hg.positions]
    exact hf.unmoved id v hv
  · obtain ⟨v, hv, hg⟩ := receive_gains hf.configured hfits hreceive hv'
    have hlook := hg.look (hg.timeVarying ▸ htv) (hf.unmoved id v hv) b.key
    have hfind : look v' b.key = some (plain b) := by
      rw [look, KeyedStore.find_eq_some.mpr ⟨hb, rfl⟩, Option.map_some]
    rw [hfind] at hlook
    rcases Option.or_eq_some_iff.mp hlook.symm with hold | ⟨-, hnew⟩
    · -- an old block, with the same key
      obtain ⟨b₀, hb₀, -⟩ := Option.map_eq_some_iff.mp hold
      obtain ⟨hmem, hkey⟩ := KeyedStore.find_eq_some.mp hb₀
      obtain ⟨i₀, hi₀⟩ := hf.owned id v hv (hg.timeVarying ▸ htv) b₀ hmem
      exact ⟨i₀, (congrArg Prod.fst hkey).symm.trans hi₀⟩
    · refine ⟨i, ?_⟩
      by_contra hne
      have hkey : ¬ b.key.1 = source i := hne
      rw [gained, if_neg hkey] at hnew
      exact absurd hnew.symm (Option.some_ne_none _)
  · obtain ⟨v, hv, hg⟩ := receive_gains hf.configured hfits hreceive hv'
    rw [hcounts.updates] at hk
    rw [hg.look (hg.timeVarying ▸ htv) (hf.unmoved id v hv) (source j, k, bid),
      hf.filed id v hv (hg.timeVarying ▸ htv) j k bid hk, hg.layout, hcounts.handled, gained]
    by_cases hj : j = i
    · subst hj
      rw [Function.update_self, published_append, if_pos rfl, Option.map_or]
    · rw [Function.update_of_ne hj, if_neg fun he => hj (hinj he), Option.or_none]

theorem Filed.endOfIterationCallback (hf : sv.Filed config source)
    (hlast : sv.lastIteration = sv.updates.length + 1) (gc : Bool) :
    (sv.endOfIterationCallback gc).Filed config source := by
  have hlen : (sv.endOfIterationCallback gc).updates.length = sv.updates.length + 1 := by
    rw [Server.endOfIterationCallback, List.length_append]
    rfl
  cases gc with
  | false =>
    refine ⟨hf.configured, hf.unmoved, hf.owned, fun id v hv htv i k bid hk => ?_⟩
    rw [hlen] at hk
    exact hf.filed id v hv htv i k bid (by push_cast at hk; omega)
  | true =>
    have hvars : (sv.endOfIterationCallback true).vars =
        collect sv.vars ((sv.lastIteration : ℤ) - 1) := rfl
    refine ⟨collect_configured hf.configured _, fun id v' hv' => ?_, fun id v' hv' htv b hb => ?_,
      fun id v' hv' htv i k bid hk => ?_⟩
    · obtain ⟨v, hv, -, -, hpos, -⟩ := collect_look (hvars ▸ hv')
      rw [hpos]
      exact hf.unmoved id v hv
    · obtain ⟨v, hv, htv', -, -, hsub, -⟩ := collect_look (hvars ▸ hv')
      exact hf.owned id v hv (htv' ▸ htv) b (hsub b hb)
    · obtain ⟨v, hv, htv', hlayout, -, -, hlook⟩ := collect_look (hvars ▸ hv')
      rw [hlen] at hk
      push_cast at hk
      have hlater : (sv.lastIteration : ℤ) - 1 < k := by
        rw [hlast]
        push_cast
        omega
      rw [hlook (source i, k, bid) hlater, hlayout]
      exact hf.filed id v hv (htv' ▸ htv) i k bid (by omega)

/-- What a server sees that has handled an end of iteration `k` last, of each client. -/
theorem Filed.sees (hf : sv.Filed config source) {rest : Fin m → List (Sent G)}
    (hended : ∀ i, sv.endedBy i = sv.updates.length + 1)
    (hlast : ∀ i, (sv.handled i).getLast? = some (.endIteration false))
    (hdated : ∀ i, Dated config 0 (sv.handled i ++ rest i)) {id : ℤ} {v : Variable G}
    (hv : sv.vars id = some v) (htv : v.timeVarying = true) :
    Sees source (fun i => sv.handled i ++ rest i) sv.updates.length id v := by
  -- the handled messages write to iterations up to `k`, the others to later ones
  have hpast : ∀ i k' bid, published (sv.handled i) id k' bid ≠ none → k' ≤ sv.updates.length := by
    intro i k' bid hne
    obtain ⟨pre, hpre⟩ := List.getLast?_eq_some_iff.mp (hlast i)
    have hlen : (ends pre).length + 1 = sv.updates.length + 1 := by
      rw [← hended i, endedBy, hpre, ends_append, List.length_append]
      rfl
    have hdate := (dated_append.mp (hdated i)).1
    rw [hpre] at hdate hne
    have hnone : published [(.endIteration false : Sent G)] id k' bid = none := rfl
    rw [published_append, hnone, Option.or_none] at hne
    have hbetween := between_of_published (dated_append.mp hdate).1 hne
    omega
  have hfuture : ∀ i bid, published (rest i) id sv.updates.length bid = none := by
    intro i bid
    by_contra hne
    have hbetween := between_of_published (dated_append.mp (hdated i)).2 hne
    have hlen := hended i
    rw [endedBy] at hlen
    omega
  have hsent : ∀ i bid, published (sv.handled i ++ rest i) id sv.updates.length bid =
      published (sv.handled i) id sv.updates.length bid := by
    intro i bid
    rw [published_append, hfuture, Option.or_none]
  have hblock : ∀ b ∈ v.blocks, (sv.updates.length : ℤ) ≤ b.iteration → ∃ i wr,
      published (sv.handled i) id b.iteration b.id = some wr ∧
        plain b = made v.layout (source i) wr := by
    intro b hb hk
    obtain ⟨i, hi⟩ := hf.owned id v hv htv b hb
    have hfiled := hf.filed id v hv htv i b.iteration b.id hk
    have hfind : look v (source i, b.iteration, b.id) = some (plain b) := by
      rw [look, KeyedStore.find_eq_some.mpr ⟨hb, by rw [Block.key, hi]⟩, Option.map_some]
    obtain ⟨wr, hwr, hmade⟩ := Option.map_eq_some_iff.mp (hfiled.symm.trans hfind)
    exact ⟨i, wr, hwr, hmade.symm⟩
  refine ⟨fun b hb => ?_, fun b hb hk => ?_, fun i bid wr hwr => ?_⟩
  · by_contra hlt
    obtain ⟨i, wr, hwr, -⟩ := hblock b hb (by omega)
    exact hlt (hpast i _ _ (hwr ▸ Option.some_ne_none wr))
  · obtain ⟨i, wr, hwr, hmade⟩ := hblock b hb hk.ge
    exact ⟨i, wr, (hsent i b.id).trans (hk ▸ hwr), hmade⟩
  · have hfiled := hf.filed id v hv htv i sv.updates.length bid le_rfl
    rw [← hsent, hwr] at hfiled
    obtain ⟨b, hb, hmade⟩ := Option.map_eq_some_iff.mp hfiled
    exact ⟨b, (KeyedStore.find_eq_some.mp hb).1, hmade⟩

end Server

namespace State

variable {s s' : State c m G} {source : Peer c m ↪ ℤ}

/-- The condition: no client reports an error. -/
def Errorless (s : State c m G) : Action c m G → Prop
  | .enter x => (s.clients x).errorOccured = false
  | _ => True

instance (s : State c m G) : (a : Action c m G) → Decidable (s.Errorless a)
  | .enter x => inferInstanceAs (Decidable ((s.clients x).errorOccured = false))
  | .call _ _ | .leave _ | .handle _ _ _ | .deliver _ _ _ _ => .isTrue trivial

/-- The `j`-th update of every server is that of iteration `j`, and sees in
every time-varying variable what the server's clients have written in it. -/
def Consistent (s : State c m G) : Prop :=
  ∀ p (j : ℕ) x, (s.servers p).updates[j]? = some x → x.1 = j ∧ ∀ id v, x.2 id = some v →
    v.timeVarying = true →
      Sees (fun i => (s.clients (p, i)).source) (fun i => s.sent (p, i)) j id v

/-! ## Runs without errors -/

theorem failed_eq_false (h : ∀ x, true ∉ s.votes x) (k : ℕ) : s.failed k = false := by
  refine decide_eq_false ?_
  rintro ⟨x, hx⟩
  exact h x (List.mem_of_getElem? hx)

theorem rounds_eq (h : ∀ x, true ∉ s.votes x) (n : ℕ) : s.rounds n = n := by
  have hall : ∀ k ∈ List.range n, (!s.failed k) = true := fun k _ => by
    rw [failed_eq_false h]
    rfl
  rw [rounds, List.countP_eq_length.mpr hall, List.length_range]

/-- Without errors no client is listened to before the next iteration. -/
theorem Inv.together (h : s.Inv) (hv : ∀ x, true ∉ s.votes x) {a : Action c m G}
    (hs : s.step a = some s') : s.Together a := by
  cases a with
  | handle p i gc =>
    intro e rest hq
    simp only [State.step, hq] at hs
    split_ifs at hs with harmed
    obtain ⟨-, -, hnot, -⟩ := (h.listening p).armed_eq_one fun h0 => harmed (.inl h0)
    rcases (h.counted p).between i with he | he
    · exact he
    · exact absurd ⟨he, failed_eq_false hv _⟩ hnot
  | _ => trivial

/-- The invariant of runs without errors. -/
structure CutInv (config : ℤ → Option (Bool × Layout)) (source : Peer c m ↪ ℤ) (s : State c m G) :
    Prop where
  base : s.Inv
  errorless : ∀ x, true ∉ s.votes x
  sources : ∀ x, (s.clients x).source = source x
  iterations : ∀ x, (s.clients x).iteration = s.left x
  configured : ∀ x, (s.clients x).vars.Configured config
  dated : ∀ x, Dated config 0 (s.sent x)
  filed : ∀ p, (s.servers p).Filed config fun i => source (p, i)
  consistent : ∀ p (j : ℕ) x, (s.servers p).updates[j]? = some x → x.1 = j ∧ ∀ id v,
    x.2 id = some v → v.timeVarying = true →
      Sees (fun i => source (p, i)) (fun i => s.sent (p, i)) j id v

theorem CutInv.result (h : s.CutInv config source) : s.Consistent := by
  intro p j x hx
  simp only [h.sources]
  exact h.consistent p j x hx

/-- All iterations that a server has processed have been left by its clients. -/
theorem CutInv.updates_le_left (h : s.CutInv config source) (p : c.Rank) (i : Fin m) :
    (s.servers p).updates.length ≤ s.left (p, i) := by
  have hended := (h.base.agreed.handled p i).1
  have hbetween := (h.base.counted p).between i
  have hrounds := rounds_eq h.errorless (s.servers p).lastIteration
  rcases h.base.listening p with ⟨hn, -⟩ | ⟨hn, -⟩ <;> omega

/-- A step of a client: it sends messages of its iteration, if any. -/
theorem CutInv.grow (h : s.CutInv config source) (hbase : s'.Inv)
    (herrorless : ∀ x, true ∉ s'.votes x) (hsources : ∀ x, (s'.clients x).source = source x)
    (hiterations : ∀ x, (s'.clients x).iteration = s'.left x)
    (hconfigured : ∀ x, (s'.clients x).vars.Configured config) (hservers : s'.servers = s.servers)
    (hsent : ∀ x, ∃ out, s'.sent x = s.sent x ++ out ∧ Dated config (s.left x) out) :
    s'.CutInv config source := by
  refine ⟨hbase, herrorless, hsources, hiterations, hconfigured, fun x => ?_,
    hservers ▸ h.filed, fun p j x hx => ?_⟩
  · obtain ⟨out, hout, hdated⟩ := hsent x
    have hlen : (ends (s.sent x)).length = s.left x := by
      rw [h.base.agreed.flags x, List.length_map, List.length_range]
    rw [hout, dated_append, hlen, Nat.zero_add]
    exact ⟨h.dated x, hdated⟩
  · rw [hservers] at hx
    obtain ⟨hj, hsees⟩ := h.consistent p j x hx
    refine ⟨hj, fun id v hv htv => (hsees id v hv htv).congr fun i bid => ?_⟩
    obtain ⟨out, hout, hdated⟩ := hsent (p, i)
    have hlt : j < s.left (p, i) :=
      (List.getElem?_eq_some_iff.mp hx).1.trans_le (h.updates_le_left p i)
    have hnone : published out id j bid = none := by
      by_contra hne
      have := between_of_published hdated hne
      omega
    rw [hout, published_append, hnone, Option.or_none]

/-- A client goes on and sends something. -/
theorem CutInv.client (h : s.CutInv config source) {x : Peer c m} {client : Client G}
    {left : Peer c m → ℕ} {out : List (Sent G)}
    (hbase : Inv { s with
      clients := Function.update s.clients x client
      left := left
      queue := Function.update s.queue x (s.queue x ++ out) })
    (hsource : client.source = (s.clients x).source) (hiteration : client.iteration = left x)
    (hleft : ∀ y, y ≠ x → left y = s.left y) (hconfigured : client.vars.Configured config)
    (hout : Dated config (s.left x) out) :
    CutInv config source { s with
      clients := Function.update s.clients x client
      left := left
      queue := Function.update s.queue x (s.queue x ++ out) } := by
  have heach : ∀ P : Peer c m → Client G → Prop, P x client → (∀ y, y ≠ x → P y (s.clients y)) →
      ∀ y, P y (Function.update s.clients x client y) := fun P hx hall =>
    (Function.forall_update_iff s.clients P).mpr ⟨hx, hall⟩
  refine h.grow hbase h.errorless
    (heach (fun y client => client.source = source y) (hsource.trans (h.sources x))
      fun y _ => h.sources y)
    (heach (fun y client => client.iteration = left y) hiteration
      fun y hy => (h.iterations y).trans (by rw [hleft y hy]))
    (heach (fun _ client => client.vars.Configured config) hconfigured fun y _ => h.configured y)
    rfl fun y => ?_
  by_cases hy : y = x
  · subst hy
    exact ⟨out, by simp [sent], hout⟩
  · exact ⟨[], by simp [sent, hy], trivial⟩

/-- A message is handled. -/
theorem CutInv.handle (h : s.CutInv config source) {p : c.Rank} {i : Fin m} {op : Sent G}
    {rest : List (Sent G)} {gc sync : Bool} {sv : Server m G} (hq : s.queue (p, i) = op :: rest)
    (hx : ((s.servers p).complete i).onHeader (s.clients (p, i)).source i gc op = some (sv, sync))
    (hbase : Inv ({ s with queue := Function.update s.queue (p, i) rest }.setServer p sv sync)) :
    CutInv config source
      ({ s with queue := Function.update s.queue (p, i) rest }.setServer p sv sync) := by
  obtain ⟨one, hcounts, -⟩ := Server.onHeader_counts hx
  have hop : op ≠ .endIteration true := by
    rintro rfl
    have hflag := (h.base.agreed.flag hq).1
    rw [failed_eq_false h.errorless] at hflag
    exact absurd hflag (by decide)
  obtain ⟨n, hfits⟩ : ∃ n : ℤ, Fits config n op := by
    have hdated := h.dated (p, i)
    rw [sent, hq] at hdated
    exact ⟨_, (dated_append.mp hdated).2.1⟩
  rw [h.sources] at hx
  have hfiled : sv.Filed config fun i => source (p, i) :=
    (h.filed p).onHeader (fun i j he => (Prod.mk.inj (source.injective he)).2) hop hfits hx
  set s' := { s with queue := Function.update s.queue (p, i) rest }.setServer p sv sync with hs'
  have hsent : ∀ x, s'.sent x = s.sent x := sent_setServer hq hcounts
  refine ⟨hbase, h.errorless, h.sources, h.iterations, h.configured, fun x => hsent x ▸ h.dated x,
    fun q => ?_, fun q j x hx' => ?_⟩
  · by_cases hqp : q = p
    · subst hqp
      simpa [hs', setServer] using hfiled
    · simpa [hs', setServer, hqp] using h.filed q
  · simp only [hsent]
    refine h.consistent q j x ?_
    by_cases hqp : q = p
    · subst hqp
      rw [← hcounts.updates]
      simpa [hs', setServer] using hx'
    · simpa [hs', setServer, hqp] using hx'

/-- The callback of a `Sync` runs on a server. -/
theorem CutInv.endOfIteration (h : s.CutInv config source) {p : c.Rank} {sync : SyncState c} {gc : Bool}
    (hpending : (s.servers p).updates.length < s.rounds (s.servers p).lastIteration)
    (hbase : Inv { s with
      sync := sync
      servers := Function.update s.servers p ((s.servers p).endOfIterationCallback gc) }) :
    CutInv config source { s with
      sync := sync
      servers := Function.update s.servers p ((s.servers p).endOfIterationCallback gc) } := by
  obtain ⟨hlen, harmed⟩ := (h.base.listening p).resolve_left fun hl => absurd hl.1 hpending.ne
  have hlast : (s.servers p).lastIteration = (s.servers p).updates.length + 1 := by
    rw [hlen, rounds_eq h.errorless]
  set s' : State c m G := { s with
    sync := sync
    servers := Function.update s.servers p ((s.servers p).endOfIterationCallback gc) } with hs'
  have hself : s'.servers p = (s.servers p).endOfIterationCallback gc := Function.update_self _ _ _
  have hother : ∀ q, q ≠ p → s'.servers q = s.servers q := fun q hq => Function.update_of_ne hq _ _
  have hsent : ∀ x, s'.sent x = s.sent x := by
    intro x
    by_cases hx : x.1 = p
    · subst hx
      rw [sent, hself]
      rfl
    · rw [sent, hother _ hx]
      rfl
  refine ⟨hbase, h.errorless, h.sources, h.iterations, h.configured, fun x => hsent x ▸ h.dated x,
    fun q => ?_, fun q j x hx => ?_⟩
  · by_cases hq : q = p
    · subst hq
      rw [hself]
      exact (h.filed q).endOfIterationCallback hlast gc
    · rw [hother q hq]
      exact h.filed q
  · simp only [hsent]
    by_cases hq : q = p
    · subst hq
      rw [hself, Server.endOfIterationCallback] at hx
      rcases Nat.lt_trichotomy j (s.servers q).updates.length with hj | rfl | hj
      · rw [List.getElem?_append_left hj] at hx
        exact h.consistent q j x hx
      · -- the update that runs now
        rw [List.getElem?_concat_length] at hx
        obtain rfl := Option.some.inj hx
        refine ⟨by rw [hlast]; push_cast; ring, fun id v hv htv => ?_⟩
        exact (h.filed q).sees (fun i => (harmed i).2.trans hlast)
          (fun i => h.base.quiet q i (harmed i).1) (fun i => h.dated (q, i)) hv htv
      · have hnone : ((s.servers q).updates ++
            [(((s.servers q).lastIteration : ℤ) - 1, (s.servers q).vars)])[j]? = none := by
          rw [List.getElem?_eq_none_iff, List.length_append]
          exact hj
        exact absurd (hx.symm.trans hnone) (Option.some_ne_none x)
    · rw [hother q hq] at hx
      exact h.consistent q j x hx

theorem CutInv.step (h : s.CutInv config source) {a : Action c m G} (hg : s.Errorless a)
    (hs : s.step a = some s') : s'.CutInv config source := by
  have hbase : s'.Inv := h.base.step (h.base.together h.errorless hs) hs
  have hnone : ∀ x, ∃ out, s.sent x = s.sent x ++ out ∧ Dated config (s.left x) out := fun x =>
    ⟨[], (List.append_nil _).symm, trivial⟩
  cases a with
  | call x req =>
    simp only [State.step] at hs
    split_ifs at hs
    obtain rfl := Option.some.inj hs
    obtain ⟨hk, hfits⟩ := fits_request (h.configured x) req
    have hout : Dated config (s.left x) ((s.clients x).request req).2.toList := by
      rw [h.iterations x] at hfits
      cases hop : ((s.clients x).request req).2 with
      | none => trivial
      | some op => exact dated_singleton (hfits op (by rw [hop]; exact List.mem_singleton_self op))
    exact h.client hbase hk.source (hk.iteration.trans (h.iterations x)) (fun _ _ => rfl)
      (hk.configured (h.configured x)) hout
  | enter x =>
    simp only [State.step] at hs
    split_ifs at hs
    obtain rfl := Option.some.inj hs
    refine h.grow hbase (fun y => ?_) h.sources h.iterations h.configured rfl hnone
    have hvote : (s.clients x).errorOccured = false := hg
    by_cases hy : y = x
    · subst hy
      simpa [hvote] using h.errorless y
    · simpa [hy] using h.errorless y
  | leave x =>
    simp only [State.step] at hs
    split_ifs at hs
    obtain rfl := Option.some.inj hs
    have hiteration : (s.clients x).startNextIteration.iteration =
        Function.update s.left x (s.left x + 1) x := by
      rw [Function.update_self, Client.startNextIteration, h.iterations x]
      rfl
    exact h.client hbase rfl hiteration (fun y hy => Function.update_of_ne hy _ _)
      (h.configured x) ⟨trivial, trivial⟩
  | handle p i gc =>
    cases hq : s.queue (p, i) with
    | nil => simp [State.step, hq] at hs
    | cons op rest =>
      simp only [State.step, hq] at hs
      split_ifs at hs
      obtain ⟨⟨sv, sync⟩, hx, rfl⟩ := Option.map_eq_some_iff.mp hs
      exact h.handle hq hx hbase
  | deliver p message src gc =>
    simp only [State.step] at hs
    split_ifs at hs
    obtain ⟨sync, hsync, hs'⟩ := Option.map_eq_some_iff.mp hs
    split_ifs at hs' with hran
    · subst hs'
      exact h.grow hbase h.errorless h.sources h.iterations h.configured rfl hnone
    · subst hs'
      exact h.endOfIteration (h.base.pending hsync hran) hbase

theorem cutInv_initial (config : ℤ → Option (Bool × Layout)) (source : Peer c m ↪ ℤ)
    (numDomains : ℤ) : (initial config source numDomains : State c m G).CutInv config source := by
  have hnew : ∀ {id v}, (Variables.new config : Variables G) id = some v →
      v.positions = (fun _ => none) ∧ v.blocks = KeyedStore.empty := by
    intro id v hv
    obtain ⟨x, -, rfl⟩ := Option.map_eq_some_iff.mp hv
    exact ⟨rfl, rfl⟩
  refine ⟨inv_initial config source numDomains, fun _ => List.not_mem_nil, fun _ => rfl, fun _ => rfl,
    fun _ => Variables.configured_new config, fun _ => trivial,
    fun p => ⟨Variables.configured_new config, fun id v hv => (hnew hv).1, fun id v hv _ b hb => ?_,
      fun id v hv _ i k bid _ => ?_⟩, fun p j x hx => absurd hx nofun⟩
  · rw [(hnew hv).2] at hb
    exact absurd hb (KeyedStore.notMem_empty b)
  · rw [look, (hnew hv).2]
    rfl

/-- A client writes a block before both end the iteration. -/
def oneWrite : List (Action SyncState.alone 2 Unit) :=
  .call clientA (.write 0 0 (some ⟨fun _ => some (some ()), fun _ => some (some ()),
    fun _ _ => none⟩)) :: .handle only clientA.2 false :: oneIteration

end State
end Damaris.Iteration
