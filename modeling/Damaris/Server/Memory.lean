import Mathlib.Tactic
import Damaris.Server.AtRest
import Damaris.Server.Residency

/-!
# The memory that data takes

A client that writes takes memory for each block. The region is named by a message, then owned by a
block of the server, and free again when the garbage collector has removed the block. A client that
finds too little memory waits. Here the clients only write, each block once in an iteration.
-/
set_option linter.unusedSectionVars false

namespace Damaris.Iteration

open Damaris.Data Damaris.Msg Damaris.Comm

variable {c : Topology} {m : ℕ} {G : Type*} {config : ℤ → Option (Bool × Layout)}

/-! ## What messages write -/

/-- The iteration and the domain of each block of a variable that is written. -/
def writes (id : ℤ) (ops : List (Sent G)) : List (ℤ × ℤ) :=
  ops.filterMap fun
    | .write wr => if wr.id = id then some (wr.iteration, wr.block) else none
    | _ => none

/-- Of these, how many are in iterations from `n` on. -/
def since (n : ℕ) (ks : List (ℤ × ℤ)) : ℕ := ks.countP fun k => (n : ℤ) ≤ k.1

@[simp] theorem writes_nil (id : ℤ) : writes id ([] : List (Sent G)) = [] := rfl

@[simp] theorem writes_append (id : ℤ) (ops ops' : List (Sent G)) :
    writes id (ops ++ ops') = writes id ops ++ writes id ops' :=
  List.filterMap_append

@[simp] theorem since_nil (n : ℕ) : since n [] = 0 := rfl

@[simp] theorem since_append (n : ℕ) (ks ks' : List (ℤ × ℤ)) :
    since n (ks ++ ks') = since n ks + since n ks' :=
  List.countP_append

theorem since_eq_length {n : ℕ} {ks : List (ℤ × ℤ)} (h : ∀ k ∈ ks, (n : ℤ) ≤ k.1) :
    since n ks = ks.length :=
  List.countP_eq_length.mpr fun k hk => decide_eq_true (h k hk)

theorem mem_writes {id : ℤ} {ops : List (Sent G)} {k : ℤ × ℤ} :
    k ∈ writes id ops ↔ ∃ wr, .write wr ∈ ops ∧ wr.id = id ∧ (wr.iteration, wr.block) = k := by
  rw [writes, List.mem_filterMap]
  constructor
  · intro h
    obtain ⟨op, hop, hsome⟩ := h
    cases op with
    | write wr =>
      simp only at hsome
      split_ifs at hsome with hid
      exact ⟨wr, hop, hid, Option.some.inj hsome⟩
    | _ => exact absurd hsome.symm (Option.some_ne_none k)
  · intro h
    obtain ⟨wr, hop, hid, hk⟩ := h
    exact ⟨.write wr, hop, by simp [hid, hk]⟩

theorem nodup_writes_singleton (id : ℤ) (op : Sent G) : (writes id [op]).Nodup := by
  have hlen : (writes id [op]).length ≤ 1 := List.length_filterMap_le _ _
  rcases hks : writes id [op] with _ | ⟨k, _ | ⟨k', ks⟩⟩
  · exact List.nodup_nil
  · exact List.nodup_singleton k
  · rw [hks, List.length_cons, List.length_cons] at hlen
    omega

/-- A message that neither commits a block nor clears one. -/
def Plain : Sent G → Prop
  | .commit _ | .clear _ => False
  | _ => True

theorem published_of_mem {id : ℤ} {ops : List (Sent G)} {k : ℤ × ℤ} (h : k ∈ writes id ops) :
    published ops id k.1 k.2 ≠ none := by
  obtain ⟨wr, hop, hid, rfl⟩ := mem_writes.mp h
  rw [published, Ne, List.findSome?_eq_none_iff]
  intro hnone
  have := hnone _ hop
  simp [hid] at this

theorem published_of_notMem {id : ℤ} {ops : List (Sent G)} (hplain : ∀ op ∈ ops, Plain op)
    {k bid : ℤ} (h : (k, bid) ∉ writes id ops) : published ops id k bid = none := by
  by_contra hne
  obtain ⟨wr, hwr⟩ := Option.ne_none_iff_exists'.mp hne
  obtain ⟨op, hop, hsome⟩ := List.exists_of_findSome?_eq_some hwr
  cases op with
  | write w =>
    simp only at hsome
    split_ifs at hsome with hw
    obtain ⟨hid, hk, hb⟩ := hw
    exact h (mem_writes.mpr ⟨w, hop, hid, by rw [hk, hb]⟩)
  | commit w => exact hplain _ hop
  | _ => exact absurd hsome.symm (Option.some_ne_none wr)

theorem since_eq_zero {n : ℕ} {ks : List (ℤ × ℤ)} (h : ∀ k ∈ ks, k.1 < n) : since n ks = 0 :=
  List.countP_eq_zero.mpr fun k hk hle => absurd (of_decide_eq_true hle) (not_le.mpr (h k hk))

/-- Messages write to the iterations they are sent in. -/
theorem between_of_mem {id : ℤ} {n : ℕ} {ops : List (Sent G)} (h : Dated config n ops) {k : ℤ × ℤ}
    (hk : k ∈ writes id ops) : (n : ℤ) ≤ k.1 ∧ k.1 ≤ n + (ends ops).length :=
  between_of_published h (published_of_mem hk)

/-- A client writes at most once to each of its domains in an iteration. -/
theorem length_le_numDomains {numDomains k : ℤ} {ks : List (ℤ × ℤ)} (hnodup : ks.Nodup)
    (hk : ∀ x ∈ ks, x.1 = k) (hdomains : ∀ x ∈ ks, 0 ≤ x.2 ∧ x.2 < numDomains) :
    ks.length ≤ numDomains.toNat := by
  have hinj : ∀ x ∈ ks, ∀ y ∈ ks, x.2 = y.2 → x = y := fun x hx y hy heq =>
    Prod.ext ((hk x hx).trans (hk y hy).symm) heq
  have hsub : (ks.map Prod.snd).toFinset ⊆ Finset.Ico 0 numDomains := by
    intro b hb
    obtain ⟨x, hx, rfl⟩ := List.mem_map.mp (List.mem_toFinset.mp hb)
    exact Finset.mem_Ico.mpr (hdomains x hx)
  calc ks.length
      = (ks.map Prod.snd).toFinset.card := by
        rw [List.toFinset_card_of_nodup (hnodup.map_on hinj), List.length_map]
    _ ≤ (Finset.Ico 0 numDomains).card := Finset.card_le_card hsub
    _ = numDomains.toNat := by rw [Int.card_Ico, sub_zero]

/-! ## What a handler stores -/

/-- The number of blocks of a variable. -/
def blocksOf (vs : Variables G) (id : ℤ) : ℕ := (vs id).elim 0 fun v => v.blocks.elems.length

/-- A message that writes a new block adds one to its variable. -/
theorem blocksOf_receive {vs vs' : Variables G} {source n : ℤ} {op : Sent G}
    (hconf : vs.Configured config) (hfits : Fits config n op) (hplain : Plain op)
    (hvaries : ∀ id v, vs id = some v → v.timeVarying = true ∧ v.positions = fun _ => none)
    (hfree : ∀ wr v, op = .write wr → vs wr.id = some v →
      v.blocks.find (source, wr.iteration, wr.block) = none)
    (h : receive vs source op = some vs') {id : ℤ} (hid : vs id ≠ none) :
    blocksOf vs' id = blocksOf vs id + (writes id [op]).length := by
  cases op with
  | write wr =>
    obtain ⟨hit, hhandle, hdims⟩ := hfits
    obtain ⟨x, hx, rfl⟩ := Option.map_eq_some_iff.mp h
    rcases Variables.onWrite_cases hx with ⟨hsame, hnone⟩ | ⟨v, y, hv, hset, hret⟩
    · have hne : wr.id ≠ id := fun heq => hid (heq ▸ hnone)
      simp [hsame, writes, hne]
    · by_cases hwr : wr.id = id
      · subst hwr
        have hlen : wr.dims.length = v.layout.dimensions := by
          have hc := hconf wr.id
          rw [hv, Option.map_some] at hc
          exact hdims _ hc.symm
        obtain ⟨htv, hpos⟩ := hvaries _ v hv
        have hnone := hfree wr v rfl hv
        have hlook := (retrieveBounds_look htv hpos hlen hret (.inl hhandle)).2
          (source, wr.iteration, wr.block)
        have hadds := Variable.retrieveBounds_adds hret
        rw [show v.normalise wr.iteration = wr.iteration from if_pos htv] at hadds
        obtain ⟨b, hb⟩ : ∃ b, y.2 = some b := by
          by_contra hrefused
          have hsame := hadds.refused (Option.eq_none_iff_forall_ne_some.mpr fun b hb =>
            hrefused ⟨b, hb⟩)
          rw [hsame, look, hnone] at hlook
          simp at hlook
        have hkey := hadds.filed b hb
        have hone := KeyedStore.length_of_added (hadds.added b hb) (hkey ▸ hnone)
        simp [blocksOf, hset, Variables.set_same, hv, hone, writes]
      · rw [blocksOf, hset, Variables.set_of_ne (Ne.symm hwr)]
        simp [blocksOf, writes, hwr]
  | commit wr => exact False.elim hplain
  | clear msg => exact False.elim hplain
  | _ =>
    obtain rfl := Option.some.inj h
    rfl

/-- A message that can be handled: with the bounds of a body `Retrieve` is defined. -/
theorem receive_isSome {vs : Variables G} {source : ℤ} {op : Sent G} (hplain : Plain op) :
    (receive vs source op).isSome := by
  cases op with
  | write wr =>
    rw [receive, Option.isSome_map, Variables.onWrite, Variables.retrieve]
    cases hv : vs wr.id with
    | none => rfl
    | some v =>
      obtain ⟨v', r, hret, -⟩ := Variables.retrieveBounds_message v shared source wr.iteration
        wr.block wr.dims wr.handle
      simp [hret]
  | commit wr => exact False.elim hplain
  | clear msg => exact False.elim hplain
  | _ => rfl

/-! ## A client that only writes -/

/-- The client holds no block of its own. -/
def Bare (client : Client G) : Prop := ∀ id v, client.vars id = some v → ∀ b, b ∉ v.blocks

theorem Bare.set {client : Client G} (h : Bare client) {id : ℤ} {v : Variable G}
    (hv : ∀ b, b ∉ v.blocks) (e : Bool) :
    Bare { client with vars := client.vars.set id v, errorOccured := e } := by
  intro id' w hw
  by_cases hid : id' = id
  · subst hid
    obtain rfl := Option.some.inj ((Variables.set_same ..).symm.trans hw)
    exact hv
  · exact h id' w ((Variables.set_of_ne hid).symm.trans hw)

/-- A block that was allocated in an empty variable, and detached, leaves it empty. -/
theorem detach_allocate {v v' : Variable G} {buffer : Option (Buffer Unit G)} {source k bid : ℤ}
    {r : Option (Block G)} (hv : ∀ b, b ∉ v.blocks)
    (h : v.allocate buffer source k bid = (v', r)) : ∀ b, b ∉ (v'.detachBlock r).1.blocks := by
  have hadds := v.allocate_adds buffer source k bid
  rw [h] at hadds
  intro b hb
  cases hr : r with
  | none =>
    rw [hr] at hb
    exact hv b (hadds.refused hr ▸ hb)
  | some x =>
    have hadded := hadds.added x hr
    have hfind : (v'.blocks.find x.key).isSome := by
      rw [KeyedStore.find_eq_some.mpr ⟨(hadded x).mpr (.inr rfl), rfl⟩]
      rfl
    rw [hr, Variable.detachBlock, if_pos hfind, KeyedStore.mem_erase] at hb
    rcases (hadded b).mp hb.1 with hold | rfl
    · exact hv b hold
    · exact hb.2 rfl

theorem getBlock_of_bare {client : Client G} (h : Bare client) {id : ℤ} {v : Variable G}
    (hv : client.vars id = some v) (source k bid : ℤ) : v.getBlock source k bid = none :=
  KeyedStore.find_eq_none.mpr fun b hb => absurd hb (h id v hv b)

/-- A request that allocates no block to keep. -/
def Keepless : Client.Request G → Prop
  | .alloc _ _ _ => False
  | _ => True

theorem bare_write {client : Client G} (h : Bare client) (id bid : ℤ)
    (buffer : Option (Buffer Unit G)) :
    Bare (client.write id bid buffer).1 ∧ ∀ wr ∈ (client.write id bid buffer).2.2,
      wr.id = id ∧ wr.iteration = client.iteration ∧ wr.block = bid := by
  unfold Client.write
  cases hs : client.search id bid with
  | error e => exact ⟨h, fun wr hwr => absurd hwr.symm (Option.some_ne_none wr)⟩
  | ok v =>
    have hempty := h id v (Client.search_ok hs)
    simp only
    rcases halloc : v.allocate buffer client.source client.iteration bid with ⟨v', _ | b⟩
    · exact ⟨h.set (detach_allocate hempty halloc) true,
        fun wr hwr => absurd hwr.symm (Option.some_ne_none wr)⟩
    · have hbare : Bare { client with vars := client.vars.set id (v'.detachBlock (some b)).1 } :=
        h.set (detach_allocate hempty halloc) client.errorOccured
      simp only
      split
      · exact ⟨hbare, fun wr hwr => absurd hwr.symm (Option.some_ne_none wr)⟩
      · refine ⟨hbare, fun wr hwr => ?_⟩
        obtain rfl := Option.some.inj hwr
        exact ⟨rfl, rfl, rfl⟩

/-- A client that has no blocks of its own gets none, and sends no message about any. -/
theorem bare_request {client : Client G} (h : Bare client) {req : Client.Request G}
    (hreq : Keepless req) : Bare (client.request req).1 ∧
      ∀ op ∈ (client.request req).2, Plain op ∧ ∀ id, ∀ k ∈ writes id [op],
        ∃ bid buffer, req = .write id bid buffer ∧ k = (client.iteration, bid) := by
  have hnothing : ∀ op ∈ (none : Option (Sent G)), Plain op ∧ ∀ id, ∀ k ∈ writes id [op],
      ∃ bid buffer, req = .write id bid buffer ∧ k = (client.iteration, bid) :=
    fun op hop => absurd hop.symm (Option.some_ne_none op)
  cases req with
  | write id bid buffer =>
    obtain ⟨hbare, hmessage⟩ := bare_write h id bid buffer
    refine ⟨hbare, fun op hop => ?_⟩
    obtain ⟨wr, hwr, rfl⟩ := Option.map_eq_some_iff.mp hop
    obtain ⟨hid, hit, hb⟩ := hmessage wr hwr
    refine ⟨trivial, fun id' k hk => ?_⟩
    obtain ⟨w, hw, rfl, rfl⟩ := mem_writes.mp hk
    obtain rfl : w = wr := by simpa using hw
    exact ⟨bid, buffer, by rw [hid], by rw [hit, hb]⟩
  | alloc id bid buffer => exact False.elim hreq
  | commit id bid k =>
    have hnone : client.commit id bid k = (client, (client.commit id bid k).2.1, none) := by
      unfold Client.commit
      cases hs : client.search id bid with
      | error e => rfl
      | ok v => simp [getBlock_of_bare h (Client.search_ok hs)]
    rw [Client.request, hnone]
    exact ⟨h, hnothing⟩
  | clear id bid k =>
    have hnone : client.clear id bid k = (client, (client.clear id bid k).2.1, none) := by
      unfold Client.clear
      cases hs : client.search id bid with
      | error e => rfl
      | ok v => simp [getBlock_of_bare h (Client.search_ok hs)]
    rw [Client.request, hnone]
    exact ⟨h, hnothing⟩
  | setPosition id bid p =>
    refine ⟨?_, hnothing⟩
    rw [Client.request, Client.setPosition]
    cases hs : client.search id bid with
    | error e => exact h
    | ok v =>
      refine h.set (fun b hb => h id v (Client.search_ok hs) b ?_) client.errorOccured
      simp only [Variable.setPosition] at hb
      split_ifs at hb <;> exact hb
  | _ =>
    refine ⟨h, fun op hop => ?_⟩
    obtain rfl := Option.some.inj hop
    exact ⟨trivial, fun id k hk => absurd hk List.not_mem_nil⟩

/-! ## What is in memory -/

/-- The memory of a block of a variable. -/
def blockMemory (config : ℤ → Option (Bool × Layout)) (id : ℤ) : ℕ :=
  (config id).elim 0 fun x => x.2.requiredMemory

namespace State

variable {s s' : State c m G} {source : Peer c m ↪ ℤ}

/-- The memory that data takes on the node of a server: blocks that the server holds, and blocks that
messages on their way name. `ids` are the variables. -/
def inUse (config : ℤ → Option (Bool × Layout)) (ids : Finset ℤ) (s : State c m G) (p : c.Rank) : ℕ :=
  ∑ id ∈ ids, blockMemory config id *
    (blocksOf (s.servers p).vars id + ∑ i, (writes id (s.queue (p, i))).length)

/-- The blocks of a variable that the server's clients have written in the iterations from `n` on. -/
def writtenSince (s : State c m G) (n : ℕ) (p : c.Rank) (id : ℤ) : ℕ :=
  ∑ i, since n (writes id (s.sent (p, i)))

/-- A client writes each block once in an iteration, and allocates none to keep. -/
def Fresh (s : State c m G) : Action c m G → Prop
  | .call x (.write id bid _) => ((s.clients x).iteration, bid) ∉ writes id (s.sent x)
  | .call _ req => Keepless req
  | _ => True

/-- The condition: no error is reported, and the garbage collector is among the actions of an update. -/
def Writing (s : State c m G) (a : Action c m G) : Prop := s.Orderly a ∧ a.Collects ∧ s.Fresh a

instance (s : State c m G) : (a : Action c m G) → Decidable (s.Fresh a)
  | .call x (.write id bid _) =>
    inferInstanceAs (Decidable (((s.clients x).iteration, bid) ∉ writes id (s.sent x)))
  | .call _ (.alloc _ _ _) => .isFalse id
  | .call _ .connect | .call _ .stop | .call _ (.signal _ _) | .call _ (.commit _ _ _)
  | .call _ (.clear _ _ _) | .call _ (.setPosition _ _ _) => .isTrue trivial
  | .enter _ | .leave _ | .handle _ _ _ | .deliver _ _ _ _ => .isTrue trivial

instance (s : State c m G) (a : Action c m G) : Decidable (s.Writing a) :=
  inferInstanceAs (Decidable (s.Orderly a ∧ a.Collects ∧ s.Fresh a))

theorem Fresh.keepless {x : Peer c m} {req : Client.Request G} (h : s.Fresh (.call x req)) :
    Keepless req := by
  cases req with
  | write id bid buffer => trivial
  | _ => exact h

/-- The invariant: what a server holds are the blocks that the messages it has handled have written in
iterations that are not processed. -/
structure Ledger (config : ℤ → Option (Bool × Layout)) (s : State c m G) : Prop where
  bare : ∀ x, Bare (s.clients x)
  plain : ∀ x, ∀ op ∈ s.sent x, Plain op
  once : ∀ x id, (writes id (s.sent x)).Nodup
  held : ∀ p id, config id ≠ none → blocksOf (s.servers p).vars id =
    ∑ i, since (s.servers p).updates.length (writes id ((s.servers p).handled i))
  within : ∀ x, (s.votes x).length ≤ s.left x + 1

/-- A step of a server leaves the clients as they are. -/
theorem Ledger.serve (h : s.Ledger config) (hclients : s'.clients = s.clients)
    (hsent : ∀ x, s'.sent x = s.sent x) (hvotes : s'.votes = s.votes) (hleft : s'.left = s.left)
    (hheld : ∀ p id, config id ≠ none → blocksOf (s'.servers p).vars id =
      ∑ i, since (s'.servers p).updates.length (writes id ((s'.servers p).handled i))) :
    s'.Ledger config := by
  refine ⟨fun x => ?_, fun x op hop => ?_, fun x id => ?_, hheld, fun x => ?_⟩
  · rw [hclients]
    exact h.bare x
  · exact h.plain x op (hsent x ▸ hop)
  · rw [hsent]
    exact h.once x id
  · rw [hvotes, hleft]
    exact h.within x

/-- A step of a client sends messages, and leaves the servers as they are. -/
theorem Ledger.send (h : s.Ledger config) {x : Peer c m} {client : Client G} {out : List (Sent G)}
    (hclients : s'.clients = Function.update s.clients x client)
    (hqueue : s'.queue = Function.update s.queue x (s.queue x ++ out)) (hservers : s'.servers = s.servers)
    (hbare : Bare client) (hplain : ∀ op ∈ out, Plain op)
    (honce : ∀ id, (writes id out).Nodup ∧ ∀ k ∈ writes id out, k ∉ writes id (s.sent x))
    (hwithin : ∀ y, (s'.votes y).length ≤ s'.left y + 1) : s'.Ledger config := by
  have hself : s'.sent x = s.sent x ++ out := by
    rw [sent, sent, hservers, hqueue, Function.update_self, List.append_assoc]
  have hother : ∀ y, y ≠ x → s'.sent y = s.sent y := by
    intro y hy
    rw [sent, sent, hservers, hqueue, Function.update_of_ne hy]
  refine ⟨fun y => ?_, fun y op hop => ?_, fun y id => ?_, fun p id hid => ?_, hwithin⟩
  · rw [hclients]
    by_cases hy : y = x
    · subst hy
      rwa [Function.update_self]
    · rw [Function.update_of_ne hy]
      exact h.bare y
  · by_cases hy : y = x
    · subst hy
      rw [hself, List.mem_append] at hop
      exact hop.elim (h.plain y op) (hplain op)
    · exact h.plain y op (hother y hy ▸ hop)
  · by_cases hy : y = x
    · subst hy
      obtain ⟨hnodup, hnew⟩ := honce id
      rw [hself, writes_append]
      exact (h.once y id).append hnodup fun k hk hk' => hnew k hk' hk
    · rw [hother y hy]
      exact h.once y id
  · rw [hservers]
    exact h.held p id hid

/-- What a message adds that a server handles. -/
theorem Ledger.held_handle (h : s.Ledger config) (hcut : s.CutInv config source)
    (htv : ∀ id y, config id = some y → y.1 = true) {p : c.Rank} {i : Fin m} {op : Sent G}
    {rest : List (Sent G)} (hq : s.queue (p, i) = op :: rest) (harmed : (s.servers p).armed i ≠ 0)
    {sv : Server m G} {gc sync : Bool}
    (hx : ((s.servers p).complete i).onHeader (s.clients (p, i)).source i gc op = some (sv, sync))
    {id : ℤ} (hid : config id ≠ none) :
    blocksOf sv.vars id = ∑ j, since sv.updates.length (writes id (sv.handled j)) := by
  have hfiled := hcut.filed p
  obtain ⟨one, hcounts, -⟩ := Server.onHeader_counts hx
  obtain ⟨n, hn, hfits⟩ := hcut.fits_handle hq harmed
  have hop : op ≠ .endIteration true := by
    rintro rfl
    have hflag := (hcut.base.agreed.flag hq).1
    rw [failed_eq_false hcut.errorless] at hflag
    exact absurd hflag (by decide)
  have hsent : s.sent (p, i) = (s.servers p).handled i ++ op :: rest := by rw [sent, hq]
  have hplain : Plain op := h.plain (p, i) op (by rw [hsent]; simp)
  have hknown : ∀ id v, (s.servers p).vars id = some v →
      v.timeVarying = true ∧ v.positions = fun _ => none := by
    intro id v hv
    have hconf := hfiled.configured id
    rw [hv, Option.map_some] at hconf
    exact ⟨htv id _ hconf.symm, hfiled.unmoved id v hv⟩
  -- a block that is written once is not there yet
  have hfree : ∀ wr v, op = .write wr → (s.servers p).vars wr.id = some v →
      v.blocks.find ((s.clients (p, i)).source, wr.iteration, wr.block) = none := by
    intro wr v hwrite hv
    subst hwrite
    have hlate : ((s.servers p).updates.length : ℤ) ≤ wr.iteration := by
      rw [hfits.1]
      exact_mod_cast hn
    have hnodup := h.once (p, i) wr.id
    rw [hsent, writes_append, List.nodup_append] at hnodup
    have hnot : (wr.iteration, wr.block) ∉ writes wr.id ((s.servers p).handled i) := fun hmem =>
      hnodup.2.2 _ hmem _ (mem_writes.mpr ⟨wr, List.mem_cons_self, rfl, rfl⟩) rfl
    have hlook := hfiled.filed wr.id v hv (hknown _ v hv).1 i wr.iteration wr.block hlate
    rw [published_of_notMem (fun op' hop' => h.plain (p, i) op'
      (List.mem_append_left _ hop')) hnot, Option.map_none, ← hcut.sources] at hlook
    exact Option.map_eq_none_iff.mp hlook
  have hvars : (s.servers p).vars id ≠ none := by
    intro hnone
    have hconf := hfiled.configured id
    rw [hnone, Option.map_none] at hconf
    exact hid hconf.symm
  have hreceive : receive (s.servers p).vars (s.clients (p, i)).source op = _ := Server.onHeader_vars hop hx
  have hlate : ∀ k ∈ writes id [op], ((s.servers p).updates.length : ℤ) ≤ k.1 := by
    intro k hk
    have hbetween := between_of_mem (dated_singleton hfits) hk
    omega
  have hone : ∀ j, since sv.updates.length (writes id (sv.handled j)) =
      since (s.servers p).updates.length (writes id ((s.servers p).handled j)) +
        if j = i then (writes id [op]).length else 0 := by
    intro j
    rw [hcounts.updates, hcounts.handled]
    by_cases hj : j = i
    · subst hj
      simp only [Function.update_self, writes_append, since_append, since_eq_length hlate, if_true]
    · simp [hj]
  rw [blocksOf_receive hfiled.configured hfits hplain hknown hfree hreceive hvars, h.held p id hid]
  simp only [hone, Finset.sum_add_distrib, Finset.sum_ite_eq', Finset.mem_univ, if_true]

theorem mem_of_collect {vs : Variables G} {iteration id : ℤ} {v' : Variable G}
    (hv' : collect vs iteration id = some v') :
    ∃ v, vs id = some v ∧ v'.timeVarying = v.timeVarying ∧ ∀ b ∈ v'.blocks, b ∈ v.blocks := by
  obtain ⟨v, hv, rfl⟩ := Option.map_eq_some_iff.mp hv'
  refine ⟨v, hv, ?_⟩
  unfold Variable.clearUpToIteration
  split_ifs
  · exact ⟨rfl, fun b hb => hb⟩
  · exact ⟨rfl, fun b hb => (KeyedStore.mem_filter.mp hb).1⟩
  · exact ⟨rfl, fun b hb => hb⟩

/-- An update with the garbage collector leaves nothing behind. -/
theorem CutInv.held_deliver (hcut : s.CutInv config source) (hc : s.Collected)
    (htv : ∀ id y, config id = some y → y.1 = true) {p : c.Rank}
    (hpending : (s.servers p).updates.length < s.rounds (s.servers p).lastIteration) (id : ℤ) :
    blocksOf ((s.servers p).endOfIterationCallback true).vars id =
      ∑ i, since ((s.servers p).endOfIterationCallback true).updates.length
        (writes id ((s.servers p).handled i)) := by
  have hlast := hcut.lastIteration_eq hpending
  have hwritten : ∀ i, since ((s.servers p).endOfIterationCallback true).updates.length
      (writes id ((s.servers p).handled i)) = 0 := by
    intro i
    refine since_eq_zero fun k hk => ?_
    obtain ⟨-, harmed⟩ := (hcut.base.listening p).resolve_left fun hl => absurd hl.1 hpending.ne
    have hdated : Dated config 0 ((s.servers p).handled i) :=
      (dated_append.mp (hcut.dated (p, i))).1
    have hlt := lt_of_published hdated (hcut.base.quiet p i (harmed i).1) (published_of_mem hk)
    have hended : (ends ((s.servers p).handled i)).length = (s.servers p).endedBy i := rfl
    rw [hended, (harmed i).2, hlast] at hlt
    rw [Server.endOfIterationCallback, List.length_append, List.length_singleton]
    exact hlt
  simp only [hwritten, Finset.sum_const_zero]
  cases hv' : ((s.servers p).endOfIterationCallback true).vars id with
  | none => rw [blocksOf, hv', Option.elim_none]
  | some v' =>
    have hcollect : collect (s.servers p).vars ((s.servers p).lastIteration - 1) id = some v' := hv'
    obtain ⟨v, hv, hvarying, hsub⟩ := mem_of_collect hcollect
    have hconf := (hcut.filed p).configured id
    rw [hv, Option.map_some] at hconf
    have hvaries : v.timeVarying = true := htv id _ hconf.symm
    have hlate := mem_collect hcollect (hvarying.trans hvaries) fun w hw hwv b hb =>
      (Int.le_trans (by omega) (hc p id w hw hwv b hb) : (-1 : ℤ) ≤ b.iteration)
    rw [blocksOf, hv', Option.elim_some, List.length_eq_zero_iff, List.eq_nil_iff_forall_not_mem]
    intro b hb
    have hpast := hlate b hb
    have hearly := hcut.notLater hv hvaries b (hsub b hb)
    omega

theorem Ledger.step (h : s.Ledger config) (hcut : s.CutInv config source) (hc : s.Collected)
    (htv : ∀ id y, config id = some y → y.1 = true) {a : Action c m G} (ha : s.Writing a)
    (hs : s.step a = some s') : s'.Ledger config := by
  obtain ⟨-, hcollects, hfresh⟩ := ha
  cases a with
  | call x req =>
    simp only [State.step] at hs
    split_ifs at hs
    obtain rfl := Option.some.inj hs
    obtain ⟨hbare, hout⟩ := bare_request (h.bare x) hfresh.keepless
    refine h.send rfl rfl rfl hbare (fun op hop => (hout op (Option.mem_toList.mp hop)).1)
      (fun id => ?_) h.within
    cases hop : ((s.clients x).request req).2 with
    | none => exact ⟨List.nodup_nil, fun k hk => absurd hk List.not_mem_nil⟩
    | some op =>
      refine ⟨nodup_writes_singleton id op, fun k hk => ?_⟩
      obtain ⟨bid, buffer, rfl, rfl⟩ := (hout op hop).2 id k hk
      exact hfresh
  | enter x =>
    simp only [State.step] at hs
    split_ifs at hs with hvotes
    obtain rfl := Option.some.inj hs
    refine ⟨h.bare, h.plain, h.once, h.held, fun y => ?_⟩
    by_cases hy : y = x
    · subst hy
      simp [hvotes]
    · simpa [hy] using h.within y
  | leave x =>
    simp only [State.step] at hs
    split_ifs at hs with hvotes
    obtain rfl := Option.some.inj hs
    refine h.send rfl rfl rfl (h.bare x) ?_ ?_ ?_
    · intro op hop
      obtain rfl := List.mem_singleton.mp hop
      trivial
    · exact fun id => ⟨List.nodup_nil, fun k hk => absurd hk List.not_mem_nil⟩
    · intro y
      by_cases hy : y = x
      · subst hy
        simp [hvotes.1]
      · simpa [hy] using h.within y
  | handle p i gc =>
    cases hq : s.queue (p, i) with
    | nil => simp [State.step, hq] at hs
    | cons op rest =>
      simp only [State.step, hq] at hs
      split_ifs at hs with harmed
      obtain ⟨⟨sv, sync⟩, hx, rfl⟩ := Option.map_eq_some_iff.mp hs
      obtain ⟨one, hcounts, -⟩ := Server.onHeader_counts hx
      refine h.serve rfl (fun x => sent_setServer hq hcounts x) rfl rfl fun q id hid => ?_
      by_cases hqp : q = p
      · subst hqp
        simp only [setServer, Function.update_self]
        exact h.held_handle hcut htv hq (fun h0 => harmed (.inl h0)) hx hid
      · simp only [setServer, Function.update_of_ne hqp]
        exact h.held q id hid
  | deliver p message src gc =>
    simp only [State.step] at hs
    split_ifs at hs
    obtain ⟨sync, hsync, hs'⟩ := Option.map_eq_some_iff.mp hs
    obtain rfl : gc = true := hcollects
    split_ifs at hs' with hran
    · subst hs'
      exact h.serve rfl (fun _ => rfl) rfl rfl h.held
    · subst hs'
      refine h.serve rfl (fun x => ?_) rfl rfl fun q id hid => ?_
      · by_cases hx : x.1 = p
        · subst hx
          simp [sent, Server.endOfIterationCallback]
        · simp [sent, hx]
      · by_cases hqp : q = p
        · subst hqp
          simp only [Function.update_self]
          exact hcut.held_deliver hc htv (hcut.base.pending hsync hran) id
        · simp only [Function.update_of_ne hqp]
          exact h.held q id hid

/-- The invariants of runs whose clients only write. -/
structure Steady (config : ℤ → Option (Bool × Layout)) (source : Peer c m ↪ ℤ) (numDomains : ℤ)
    (s : State c m G) : Prop where
  cut : s.CutInv config source
  paced : s.Paced
  closing : s.Closing
  bounded : s.Bounded config numDomains
  collected : s.Collected
  ledger : s.Ledger config

theorem Steady.step {numDomains : ℤ} (h : s.Steady config source numDomains)
    (htv : ∀ id y, config id = some y → y.1 = true) {a : Action c m G} (ha : s.Writing a)
    (hs : s.step a = some s') : s'.Steady config source numDomains where
  cut := h.cut.step ha.1.errorless hs
  paced := (h.paced.step (h.cut.base.together h.cut.errorless hs) hs).1
  closing := h.closing.step ha.1 hs
  bounded := h.bounded.step h.cut hs
  collected := h.collected.step h.cut ha.2.1 hs
  ledger := h.ledger.step h.cut h.collected htv ha hs

theorem steady_initial (hm : 0 < m) (config : ℤ → Option (Bool × Layout)) (source : Peer c m ↪ ℤ)
    (numDomains : ℤ) :
    (initial config source numDomains : State c m G).Steady config source numDomains := by
  have hnone : ∀ id v, (Variables.new config : Variables G) id = some v → ∀ b, b ∉ v.blocks := by
    intro id v hv b hb
    obtain ⟨x, -, rfl⟩ := Option.map_eq_some_iff.mp hv
    exact absurd hb (KeyedStore.notMem_empty b)
  refine ⟨cutInv_initial config source numDomains, paced_initial config source numDomains,
    closing_initial hm config source numDomains, bounded_initial config source numDomains,
    fun p id v hv _ b hb => absurd hb (hnone id v hv b), fun x => hnone,
    fun x op hop => absurd hop List.not_mem_nil, fun x id => List.nodup_nil, fun p id _ => ?_,
    fun x => Nat.zero_le _⟩
  have hzero : blocksOf (Variables.new config : Variables G) id = 0 := by
    cases hv : (Variables.new config : Variables G) id with
    | none => rw [blocksOf, hv, Option.elim_none]
    | some v =>
      rw [blocksOf, hv, Option.elim_some, List.length_eq_zero_iff, List.eq_nil_iff_forall_not_mem]
      exact hnone id v hv
  exact hzero.trans (Finset.sum_eq_zero fun i _ => rfl).symm

theorem CutInv.updates_le_lastIteration (h : s.CutInv config source) (p : c.Rank) :
    (s.servers p).updates.length ≤ (s.servers p).lastIteration := by
  have hrounds := rounds_eq h.errorless (s.servers p).lastIteration
  rcases h.base.listening p with ⟨hn, -⟩ | ⟨hn, -⟩ <;> omega

/-- What is on its way has not been processed. -/
theorem CutInv.queued_late (h : s.CutInv config source) (p : c.Rank) (i : Fin m) (id : ℤ) :
    ∀ k ∈ writes id (s.queue (p, i)), ((s.servers p).updates.length : ℤ) ≤ k.1 := by
  intro k hk
  have hdated := h.dated (p, i)
  rw [sent] at hdated
  have hlate := (between_of_mem (dated_append.mp hdated).2 hk).1
  have hle := h.updates_le_lastIteration p
  have hended : (ends ((s.servers (p, i).1).handled (p, i).2)).length = (s.servers p).endedBy i := rfl
  rcases (h.base.counted p).between i with he | he <;> omega

theorem Steady.inUse_eq {numDomains : ℤ} (h : s.Steady config source numDomains) (ids : Finset ℤ)
    (p : c.Rank) : s.inUse config ids p =
      ∑ id ∈ ids, blockMemory config id * s.writtenSince (s.servers p).updates.length p id := by
  refine Finset.sum_congr rfl fun id _ => ?_
  by_cases hid : config id = none
  · rw [blockMemory, hid, Option.elim_none, Nat.zero_mul, Nat.zero_mul]
  · rw [h.ledger.held p id hid, writtenSince, ← Finset.sum_add_distrib]
    refine congrArg _ (Finset.sum_congr rfl fun i _ => ?_)
    rw [sent, writes_append, since_append, since_eq_length (h.cut.queued_late p i id)]

theorem oneVariable_varies (id : ℤ) (y : Bool × Layout) (hy : Variables.oneVariable id = some y) :
    y.1 = true := by
  rw [Variables.oneVariable] at hy
  split_ifs at hy
  obtain rfl := Option.some.inj hy
  rfl

end State
end Damaris.Iteration
