import Mathlib.Tactic
import Damaris.Lib.StepSystem
import Damaris.Buffer.Lending
import Damaris.Client.Client
import Damaris.Server.Handlers

/-!
# The regions of the shared memory

Clients that write, a server that handles the messages and clears blocks, and
the regions that pass from one to the other. On the server a block's data is the
number of its `DataSpace` handle; which region that handle is linked to, and
whether it owns it, is the heap's business.
-/
set_option linter.unusedSectionVars false

namespace Damaris.Server.Regions

open Damaris.Data Damaris.Msg Damaris.Buffer

structure State (C G : Type*) where
  clients : C → Client G
  heaps : C → Heap Heap.Local G
  queue : C → List (WriteMessage (Option G))
  allocated : Finset G
  vars : Variables ℕ
  server : Heap (Option ℕ) G
  fresh : ℕ

/-- `grant` is what the client's buffer returns in the end: nothing, an unlinked
dataspace, or a region. `keep` are the blocks of a variable that a `Clear` leaves. -/
inductive Action (C G : Type*)
  | write (c : C) (id block : ℤ) (grant : Option (Option G))
  | leave (c : C)
  | endIteration (c : C)
  | handle (c : C)
  | clear (id : ℤ) (keep : Block ℕ → Bool)

variable {C G : Type*}

/-- The client's buffer during one call. -/
def granting (grant : Option (Option G)) : Buffer Unit G :=
  ⟨fun _ => grant, fun _ => grant, fun _ _ => none⟩

/-- The server's buffer while a block with handle `n` is retrieved. -/
def linking (n : ℕ) : Buffer (Option G) ℕ :=
  ⟨fun _ => none, fun _ => none, fun h _ => h.map fun _ => n⟩

namespace State

variable [DecidableEq C] [DecidableEq G]

/-- The server's heap has changed to `h`, with `Deallocate` called on the way. -/
def release (s : State C G) (h : Heap (Option ℕ) G) : State C G :=
  { s with
    server := h
    allocated := s.allocated.filter fun g => g ∉ h.deallocated.drop s.server.deallocated.length }

/-- What `Retrieve` and `OnWrite` do to the server's handles for a message, once
there is a block for it. -/
def adopting (s : State C G) (m : WriteMessage (Option G)) : List (Buffer.Operation (Option ℕ) G) :=
  match m.handle with
  | none => []
  | some g => Heap.adoptOps s.fresh g
      ((s.vars m.id).elim 0 fun v => v.boundsSize (bounds m.dims))

def step (s : State C G) : Action C G → Option (State C G)
  | .write c id block grant =>
    match (s.clients c).write id block (some (granting grant)) with
    | (client, _, none) => some { s with clients := Function.update s.clients c client }
    | (client, _, some m) => m.handle.bind fun g =>
      -- the buffer hands out a region that is free
      if g ∈ s.allocated then none
      else
        let size := ((s.clients c).vars id).elim 0 fun v => v.layout.requiredMemory
        (StepSystem.run Heap.step (s.heaps c) (Heap.lendOps g size)).map fun h =>
          { s with
            clients := Function.update s.clients c client
            heaps := Function.update s.heaps c h
            queue := Function.update s.queue c (s.queue c ++ [m])
            allocated := insert g s.allocated }
  | .leave c => (StepSystem.run Heap.step (s.heaps c) Heap.leaveOps).map fun h =>
      { s with heaps := Function.update s.heaps c h }
  | .endIteration c =>
    let client := { s.clients c with iteration := (s.clients c).iteration + 1 }
    some { s with clients := Function.update s.clients c client }
  | .handle c =>
    match s.queue c with
    | [] => none
    | m :: rest =>
      (s.vars.onWrite (some (linking s.fresh)) (s.clients c).source m).bind fun x =>
        match x.2 with
        | none => some { s with queue := Function.update s.queue c rest, vars := x.1 }
        | some _ => (StepSystem.run Heap.step s.server (s.adopting m)).map fun h =>
          { s with
            queue := Function.update s.queue c rest
            vars := x.1
            server := h
            fresh := s.fresh + 1 }
  | .clear id keep =>
    match s.vars id with
    | none => none
    | some v =>
      let gone := (v.blocks.elems.filter fun b => !keep b).map Block.dataspace
      (StepSystem.run Heap.step s.server (gone.map .destroy)).map fun h =>
        { s.release h with vars := s.vars.set id { v with blocks := v.blocks.filter keep } }

def initial (config : ℤ → Option (Bool × Layout)) (source : C → ℤ) (numDomains : ℤ) : State C G where
  clients := fun c => ⟨source c, 0, numDomains, .new config, false⟩
  heaps := fun _ => .initial
  queue := fun _ => []
  allocated := ∅
  vars := .new config
  server := .initial
  fresh := 0

/-! ## The claim -/

/-- The message for the region has been sent and not yet been handled. -/
def InFlight (s : State C G) (g : G) : Prop := ∃ c, ∃ m ∈ s.queue c, m.handle = some g

/-- The block's handle is the only one that the server has for the region, and
owns it. -/
def Owns (s : State C G) (b : Block ℕ) (g : G) : Prop := s.server.Owner b.dataspace g

/-- Every region handled and not yet given back has exactly one owner among the
blocks, and no block has lost its region. -/
def Accounted (s : State C G) : Prop :=
  (∀ g ∈ s.allocated, ¬ s.InFlight g → ∃! p : ℤ × Block ℕ, s.vars.Stores p.1 p.2 ∧ s.Owns p.2 g) ∧
    ∀ id b, s.vars.Stores id b → ∃ g ∈ s.allocated, s.Owns b g

/-- The step deallocates, once each, the regions of the blocks that it clears. -/
def Deallocates (s s' : State C G) : Prop :=
  (∀ c, (s'.heaps c).deallocated = (s.heaps c).deallocated) ∧
    ∃ gs, s'.server.deallocated = s.server.deallocated ++ gs ∧ gs.Nodup ∧
      ∀ g, g ∈ gs ↔ ∃ id b, s.vars.Stores id b ∧ ¬ s'.vars.Stores id b ∧ s.Owns b g

def Accounts (s : State C G) (a : Action C G) : Prop :=
  ∀ s', s.step a = some s' → s'.Accounted ∧ s.Deallocates s'

/-- The condition: a `WRITE` is handled when there is no block under its key. -/
def Fresh (s : State C G) : Action C G → Prop
  | .handle c => ∀ m rest, s.queue c = m :: rest → ∀ v, s.vars m.id = some v →
      v.getBlock (s.clients c).source m.iteration m.block = none
  | _ => True

end State

/-! ## Blocks and handles -/

section Homes

variable [DecidableEq G] {vs vs' : Variables ℕ} {h h' : Heap (Option ℕ) G} {n : ℕ}

/-- The live handles of the server are those of its blocks, one each. -/
structure Homes (vs : Variables ℕ) (h : Heap (Option ℕ) G) (n : ℕ) : Prop where
  settled : h.Settled
  slots : ∀ o ∈ h.live, ∃ k < n, o = some k
  stored : ∀ id b, vs.Stores id b → b.dataspace ∈ h.live
  home : ∀ o ∈ h.live, ∃ id b, vs.Stores id b ∧ b.dataspace = o
  apart : ∀ id b id' b', vs.Stores id b → vs.Stores id' b' → b.dataspace = b'.dataspace →
    id = id' ∧ b = b'

theorem Homes.local_not_live (hh : Homes vs h n) : none ∉ h.live := by
  intro hlive
  obtain ⟨k, -, hk⟩ := hh.slots none hlive
  exact absurd hk nofun

theorem Homes.fresh_not_live (hh : Homes vs h n) : some n ∉ h.live := by
  intro hlive
  obtain ⟨k, hlt, hk⟩ := hh.slots _ hlive
  exact absurd (Option.some.inj hk) hlt.ne'

/-- A new block with a new handle. -/
theorem Homes.adopt (hh : Homes vs h n) {id₀ : ℤ} {b₀ : Block ℕ} (hb₀ : b₀.dataspace = some n)
    (hstores : ∀ id b, vs'.Stores id b ↔ vs.Stores id b ∨ (id = id₀ ∧ b = b₀))
    (hs : h'.Settled) (hlive : h'.live = insert (some n) h.live) : Homes vs' h' (n + 1) := by
  have hnew : ∀ id b, vs.Stores id b → b.dataspace ≠ some n := fun id b hb he =>
    hh.fresh_not_live (he ▸ hh.stored id b hb)
  refine ⟨hs, fun o ho => ?_, fun id b hb => ?_, fun o ho => ?_, fun id b id' b' hb hb' he => ?_⟩
  · rw [hlive] at ho
    rcases Finset.mem_insert.mp ho with rfl | ho
    · exact ⟨n, Nat.lt_succ_self n, rfl⟩
    · obtain ⟨k, hk, rfl⟩ := hh.slots o ho
      exact ⟨k, hk.trans (Nat.lt_succ_self n), rfl⟩
  · rw [hlive]
    rcases (hstores id b).mp hb with hb | ⟨-, rfl⟩
    · exact Finset.mem_insert_of_mem (hh.stored id b hb)
    · exact hb₀ ▸ Finset.mem_insert_self _ _
  · rw [hlive] at ho
    rcases Finset.mem_insert.mp ho with rfl | ho
    · exact ⟨id₀, b₀, (hstores id₀ b₀).mpr (.inr ⟨rfl, rfl⟩), hb₀⟩
    · obtain ⟨id, b, hb, he⟩ := hh.home o ho
      exact ⟨id, b, (hstores id b).mpr (.inl hb), he⟩
  · rcases (hstores id b).mp hb with hb | ⟨rfl, rfl⟩ <;>
      rcases (hstores id' b').mp hb' with hb' | ⟨rfl, rfl⟩
    · exact hh.apart id b id' b' hb hb' he
    · exact absurd (he.trans hb₀) (hnew id b hb)
    · exact absurd (he.symm.trans hb₀) (hnew id' b' hb')
    · exact ⟨rfl, rfl⟩

/-- Blocks go away together with their handles. -/
theorem Homes.clear (hh : Homes vs h n) {gone : List (Option ℕ)}
    (hstores : ∀ id b, vs'.Stores id b ↔ vs.Stores id b ∧ b.dataspace ∉ gone)
    (hs : h'.Settled) (hlive : ∀ o, o ∈ h'.live ↔ o ∈ h.live ∧ o ∉ gone) : Homes vs' h' n := by
  refine ⟨hs, fun o ho => hh.slots o ((hlive o).mp ho).1, fun id b hb => ?_, fun o ho => ?_,
    fun id b id' b' hb hb' he => ?_⟩
  · obtain ⟨hb, hgone⟩ := (hstores id b).mp hb
    exact (hlive _).mpr ⟨hh.stored id b hb, hgone⟩
  · obtain ⟨ho, hgone⟩ := (hlive o).mp ho
    obtain ⟨id, b, hb, rfl⟩ := hh.home o ho
    exact ⟨id, b, (hstores id b).mpr ⟨hb, hgone⟩, rfl⟩
  · exact hh.apart id b id' b' ((hstores id b).mp hb).1 ((hstores id' b').mp hb').1 he

/-- The handles of the blocks of a variable that are not kept. -/
theorem mem_dropped {v : Variable ℕ} {keep : Block ℕ → Bool} {o : Option ℕ} :
    o ∈ (v.blocks.elems.filter fun b => !keep b).map Block.dataspace ↔
      ∃ b ∈ v.blocks, keep b = false ∧ b.dataspace = o := by
  simp [KeyedStore.mem_def, and_assoc]

/-- The blocks that stay are those whose handles are not dropped. -/
theorem Homes.stores_filter (hh : Homes vs h n) {id : ℤ} {v : Variable ℕ} (hv : vs id = some v)
    (keep : Block ℕ → Bool) (id' : ℤ) (b : Block ℕ) :
    (vs.set id { v with blocks := v.blocks.filter keep }).Stores id' b ↔
      vs.Stores id' b ∧
        b.dataspace ∉ (v.blocks.elems.filter fun b => !keep b).map Block.dataspace := by
  have hin : ∀ b ∈ v.blocks, vs.Stores id b := fun b hb => (Variables.stores_of_eq_some hv).mpr hb
  rw [Variables.stores_set, mem_dropped]
  constructor
  · rintro (⟨rfl, hb⟩ | ⟨hid, hb⟩)
    · obtain ⟨hb, hkeep⟩ := KeyedStore.mem_filter.mp hb
      refine ⟨hin b hb, ?_⟩
      rintro ⟨b', hb', hdrop, he⟩
      obtain ⟨-, rfl⟩ := hh.apart id' b' id' b (hin b' hb') (hin b hb) he
      rw [hkeep] at hdrop
      exact absurd hdrop (by decide)
    · refine ⟨hb, ?_⟩
      rintro ⟨b', hb', -, he⟩
      exact hid (hh.apart id b' id' b (hin b' hb') hb he).1.symm
  · rintro ⟨hb, hnot⟩
    by_cases hid : id' = id
    · subst hid
      have hb := (Variables.stores_of_eq_some hv).mp hb
      refine .inl ⟨rfl, KeyedStore.mem_filter.mpr ⟨hb, ?_⟩⟩
      by_contra hkeep
      exact hnot ⟨b, hb, Bool.not_eq_true _ ▸ hkeep, rfl⟩
    · exact .inr ⟨hid, hb⟩

end Homes

/-! ## Regions in flight and regions owned -/

section Ledger

variable [DecidableEq C] [DecidableEq G] {queue : C → List (WriteMessage (Option G))}
  {allocated : Finset G} {h h' : Heap (Option ℕ) G} {g : G}

/-- An allocated region is on its way or owned on the server, not both, and on
its way only once. -/
structure Ledger (queue : C → List (WriteMessage (Option G))) (allocated : Finset G)
    (h : Heap (Option ℕ) G) : Prop where
  lent : ∀ c, ∀ m ∈ queue c, ∃ g ∈ allocated, m.handle = some g ∧ ∀ o, ¬ h.Owner o g
  once : ∀ c, ((queue c).map WriteMessage.handle).Nodup
  between : ∀ c c', c ≠ c' → ∀ m ∈ queue c, ∀ m' ∈ queue c', m.handle ≠ m'.handle
  owned : ∀ o g, h.Owner o g → g ∈ allocated
  reached : ∀ g ∈ allocated, (∃ c, ∃ m ∈ queue c, m.handle = some g) ∨ ∃ o, h.Owner o g

theorem mem_update_append {c c' : C} {m m' : WriteMessage (Option G)} :
    m' ∈ Function.update queue c (queue c ++ [m]) c' ↔ m' ∈ queue c' ∨ (c' = c ∧ m' = m) := by
  by_cases hc : c' = c
  · subst hc
    simp
  · simp [hc]

/-- A client sends a region that was free. -/
theorem Ledger.send (hl : Ledger queue allocated h) {c : C} {m : WriteMessage (Option G)}
    (hm : m.handle = some g) (hg : g ∉ allocated) :
    Ledger (Function.update queue c (queue c ++ [m])) (insert g allocated) h := by
  have hnew : ∀ c', ∀ m' ∈ queue c', m'.handle ≠ m.handle := by
    intro c' m' hm' he
    obtain ⟨g', hg', hh, -⟩ := hl.lent c' m' hm'
    obtain rfl : g' = g := Option.some.inj (hh.symm.trans (he.trans hm))
    exact hg hg'
  refine ⟨fun c' m' hm' => ?_, fun c' => ?_, fun c₁ c₂ hne m₁ h₁ m₂ h₂ => ?_, fun o g' ho => ?_,
    fun g' hg' => ?_⟩
  · rcases mem_update_append.mp hm' with hm' | ⟨-, rfl⟩
    · obtain ⟨g', hg', hrest⟩ := hl.lent c' m' hm'
      exact ⟨g', Finset.mem_insert_of_mem hg', hrest⟩
    · exact ⟨g, Finset.mem_insert_self _ _, hm, fun o ho => hg (hl.owned o g ho)⟩
  · by_cases hc : c' = c
    · subst hc
      rw [Function.update_self, List.map_append, List.nodup_append]
      refine ⟨hl.once c', by simp, ?_⟩
      rintro a ha b hb rfl
      obtain ⟨m', hm', rfl⟩ := List.mem_map.mp ha
      exact hnew c' m' hm' (by simpa using hb)
    · rw [Function.update_of_ne hc]
      exact hl.once c'
  · rcases mem_update_append.mp h₁ with hold₁ | ⟨rfl, rfl⟩ <;>
      rcases mem_update_append.mp h₂ with hold₂ | ⟨rfl, rfl⟩
    · exact hl.between c₁ c₂ hne m₁ hold₁ m₂ hold₂
    · exact hnew c₁ m₁ hold₁
    · exact (hnew c₂ m₂ hold₂).symm
    · exact absurd rfl hne
  · exact Finset.mem_insert_of_mem (hl.owned o g' ho)
  · rcases Finset.mem_insert.mp hg' with rfl | hg'
    · exact .inl ⟨c, m, mem_update_append.mpr (.inr ⟨rfl, rfl⟩), hm⟩
    · rcases hl.reached g' hg' with ⟨c', m', hm', he⟩ | ho
      · exact .inl ⟨c', m', mem_update_append.mpr (.inl hm'), he⟩
      · exact .inr ho

theorem mem_of_mem_update_tail {c c' : C} {m m' : WriteMessage (Option G)}
    {rest : List (WriteMessage (Option G))} (hq : queue c = m :: rest)
    (hm : m' ∈ Function.update queue c rest c') : m' ∈ queue c' := by
  by_cases hc : c' = c
  · subst hc
    rw [Function.update_self] at hm
    exact hq ▸ List.mem_cons_of_mem _ hm
  · rwa [Function.update_of_ne hc] at hm

/-- A handled message was the only one on its way for its region. -/
theorem Ledger.not_inFlight (hl : Ledger queue allocated h) {c : C} {m : WriteMessage (Option G)}
    {rest : List (WriteMessage (Option G))} (hq : queue c = m :: rest) {c' : C}
    {m' : WriteMessage (Option G)} (hm' : m' ∈ Function.update queue c rest c') :
    m'.handle ≠ m.handle := by
  by_cases hc : c' = c
  · subst hc
    rw [Function.update_self] at hm'
    have honce := hl.once c'
    rw [hq, List.map_cons, List.nodup_cons] at honce
    exact fun he => honce.1 (he ▸ List.mem_map_of_mem hm')
  · rw [Function.update_of_ne hc] at hm'
    exact hl.between c' c hc m' hm' m (hq ▸ List.mem_cons_self)

/-- The region of a handled message becomes a block's. -/
theorem Ledger.adopt (hl : Ledger queue allocated h) {c : C} {m : WriteMessage (Option G)}
    {rest : List (WriteMessage (Option G))} (hq : queue c = m :: rest) (hm : m.handle = some g)
    {o₀ : Option ℕ} (howner : ∀ o g', h'.Owner o g' ↔ h.Owner o g' ∨ (o = o₀ ∧ g' = g)) :
    Ledger (Function.update queue c rest) allocated h' := by
  have hgone : ∀ c' m', m' ∈ Function.update queue c rest c' → m'.handle ≠ some g :=
    fun c' m' hm' => hm ▸ hl.not_inFlight hq hm'
  refine ⟨fun c' m' hm' => ?_, fun c' => ?_, fun c₁ c₂ hne m₁ h₁ m₂ h₂ => ?_, fun o g' ho => ?_,
    fun g' hg' => ?_⟩
  · obtain ⟨g', hg', hh, hfree⟩ := hl.lent c' m' (mem_of_mem_update_tail hq hm')
    refine ⟨g', hg', hh, fun o ho => ?_⟩
    rcases (howner o g').mp ho with ho | ⟨-, rfl⟩
    · exact hfree o ho
    · exact hgone c' m' hm' hh
  · by_cases hc : c' = c
    · subst hc
      have honce := hl.once c'
      rw [hq, List.map_cons, List.nodup_cons] at honce
      rw [Function.update_self]
      exact honce.2
    · rw [Function.update_of_ne hc]
      exact hl.once c'
  · exact hl.between c₁ c₂ hne m₁ (mem_of_mem_update_tail hq h₁) m₂ (mem_of_mem_update_tail hq h₂)
  · rcases (howner o g').mp ho with ho | ⟨-, rfl⟩
    · exact hl.owned o g' ho
    · obtain ⟨g'', hg'', hh, -⟩ := hl.lent c m (hq ▸ List.mem_cons_self)
      exact Option.some.inj (hh.symm.trans hm) ▸ hg''
  · by_cases hg : g' = g
    · exact .inr ⟨o₀, (howner o₀ g').mpr (.inr ⟨rfl, hg⟩)⟩
    · rcases hl.reached g' hg' with ⟨c', m', hm', he⟩ | ⟨o, ho⟩
      · refine .inl ⟨c', m', ?_, he⟩
        by_cases hc : c' = c
        · subst hc
          rw [hq] at hm'
          rcases List.mem_cons.mp hm' with rfl | hm'
          · exact absurd (Option.some.inj (he.symm.trans hm)) hg
          · simpa using hm'
        · simpa [hc] using hm'
      · exact .inr ⟨o, (howner o g').mpr (.inl ho)⟩

/-- Regions are given back with the handles that owned them. -/
theorem Ledger.clear (hl : Ledger queue allocated h) {gone : List (Option ℕ)} {gs : List G}
    (hgs : ∀ g, g ∈ gs ↔ ∃ o ∈ gone, h.Owner o g)
    (howner : ∀ o g, h'.Owner o g ↔ h.Owner o g ∧ o ∉ gone) :
    Ledger queue (allocated.filter fun g => g ∉ gs) h' := by
  refine ⟨fun c m hm => ?_, hl.once, hl.between, fun o g ho => ?_, fun g hg => ?_⟩
  · obtain ⟨g, hg, hh, hfree⟩ := hl.lent c m hm
    refine ⟨g, Finset.mem_filter.mpr ⟨hg, fun hmem => ?_⟩, hh, fun o ho => ?_⟩
    · obtain ⟨o, -, ho⟩ := (hgs g).mp hmem
      exact hfree o ho
    · exact hfree o ((howner o g).mp ho).1
  · obtain ⟨ho, hnot⟩ := (howner o g).mp ho
    refine Finset.mem_filter.mpr ⟨hl.owned o g ho, fun hmem => ?_⟩
    obtain ⟨o', ho', howns⟩ := (hgs g).mp hmem
    exact hnot (ho.unique howns ▸ ho')
  · obtain ⟨hg, hnot⟩ := Finset.mem_filter.mp hg
    rcases hl.reached g hg with hf | ⟨o, ho⟩
    · exact .inl hf
    · exact .inr ⟨o, (howner o g).mpr ⟨ho, fun hmem => hnot ((hgs g).mpr ⟨o, hmem, ho⟩)⟩⟩

end Ledger

/-! ## One step -/

/-- `OnWrite` for a well-formed message: refused, with everything as it was, or
a block with the new handle. -/
theorem onWrite_spec {vs : Variables ℕ} {m : WriteMessage (Option G)} {g : G} {v : Variable ℕ}
    (hv : vs m.id = some v) (hd : m.dims.length = v.layout.dimensions) (hm : m.handle = some g)
    (n : ℕ) (source : ℤ) :
    (v.getBlock source m.iteration m.block ≠ none ∧
        vs.onWrite (some (linking n)) source m = some (vs, none)) ∨
      (v.getBlock source m.iteration m.block = none ∧ ∃ v' b,
        vs.onWrite (some (linking n)) source m = some (vs.set m.id v', some b) ∧
          b.dataspace = some n ∧ v'.timeVarying = v.timeVarying ∧ v'.layout = v.layout ∧
            ∀ x, x ∈ v'.blocks ↔ x ∈ v.blocks ∨ x = b) := by
  obtain ⟨v', r, hr, hiff, hds⟩ :=
    Variables.retrieveBounds_message v (linking n) source m.iteration m.block m.dims m.handle
  have hadds := Variable.retrieveBounds_adds hr
  have hwrite : vs.onWrite (some (linking n)) source m = some (vs.set m.id v', r) := by
    simp only [Variables.onWrite, Variables.retrieve, hv, hr, Option.map_some]
  have hlink :
      (linking n : Buffer (Option G) ℕ).link m.handle (v.boundsSize (bounds m.dims)) = some n := by
    simp [linking, hm]
  rw [hlink] at hiff hds
  cases r with
  | none =>
    have hsame : v' = v := hadds.refused rfl
    refine .inl ⟨fun hnone => hiff.mpr ⟨hd, hnone, nofun⟩ rfl, ?_⟩
    rw [hwrite, hsame, Variables.set, ← hv, Function.update_eq_self]
  | some b =>
    exact .inr ⟨(hiff.mp nofun).2.1, v', b, hwrite, hds b rfl, hadds.timeVarying, hadds.layout,
      hadds.added b rfl⟩

namespace State

variable [DecidableEq C] [DecidableEq G] {config : ℤ → Option (Bool × Layout)} {s s' : State C G}

structure Inv (config : ℤ → Option (Bool × Layout)) (s : State C G) : Prop where
  clients : ∀ c, (s.clients c).vars.Configured config
  idle : ∀ c, (s.heaps c).Idle
  configured : s.vars.Configured config
  formed : ∀ c, ∀ m ∈ s.queue c, ∃ x, config m.id = some x ∧ m.dims.length = x.2.dimensions
  homes : Homes s.vars s.server s.fresh
  ledger : Ledger s.queue s.allocated s.server

theorem Inv.accounted (hI : s.Inv config) : s.Accounted := by
  refine ⟨fun g hg hnot => ?_, fun id b hb => ?_⟩
  · rcases hI.ledger.reached g hg with hf | ⟨o, ho⟩
    · exact absurd hf hnot
    · obtain ⟨c, hc, -, -⟩ := id ho
      obtain ⟨id, b, hb, rfl⟩ := hI.homes.home o hc.1
      refine ⟨(id, b), ⟨hb, ho⟩, ?_⟩
      rintro ⟨id', b'⟩ ⟨hb', ho'⟩
      obtain ⟨rfl, rfl⟩ := hI.homes.apart id' b' id b hb' hb (ho'.unique ho)
      rfl
  · obtain ⟨g, hg⟩ := hI.homes.settled.owner _ (hI.homes.stored id b hb)
    exact ⟨g, hI.ledger.owned _ g hg, hg⟩

/-- A step that deallocates nothing and clears nothing. -/
theorem deallocates_nothing (hheaps : ∀ c, (s'.heaps c).deallocated = (s.heaps c).deallocated)
    (hserver : s'.server.deallocated = s.server.deallocated)
    (hstores : ∀ id b, s.vars.Stores id b → s'.vars.Stores id b) : s.Deallocates s' := by
  refine ⟨hheaps, [], by simp [hserver], List.nodup_nil, fun g => ?_⟩
  simp only [List.not_mem_nil, false_iff]
  rintro ⟨id, b, hb, hnot, -⟩
  exact hnot (hstores id b hb)

/-- The two ways in which a message is handled. -/
theorem handle_cases (hI : s.Inv config) {c : C} (hs : s.step (.handle c) = some s') :
    ∃ m rest v g, s.queue c = m :: rest ∧ s.vars m.id = some v ∧ m.handle = some g ∧
      ((v.getBlock (s.clients c).source m.iteration m.block ≠ none ∧
          s' = { s with queue := Function.update s.queue c rest }) ∨
        (v.getBlock (s.clients c).source m.iteration m.block = none ∧ ∃ v' b h,
          b.dataspace = some s.fresh ∧ v'.timeVarying = v.timeVarying ∧ v'.layout = v.layout ∧
            (∀ x, x ∈ v'.blocks ↔ x ∈ v.blocks ∨ x = b) ∧
            StepSystem.run Heap.step s.server (s.adopting m) = some h ∧
              s' = { s with
                queue := Function.update s.queue c rest
                vars := s.vars.set m.id v'
                server := h
                fresh := s.fresh + 1 })) := by
  simp only [step] at hs
  cases hq : s.queue c with
  | nil => simp [hq] at hs
  | cons m rest =>
    have hmem : m ∈ s.queue c := hq ▸ List.mem_cons_self
    obtain ⟨x, hx, hdims⟩ := hI.formed c m hmem
    obtain ⟨g, -, hg, -⟩ := hI.ledger.lent c m hmem
    have hconf := hI.configured m.id
    rw [hx] at hconf
    obtain ⟨v, hv, rfl⟩ := Option.map_eq_some_iff.mp hconf
    rw [hq] at hs
    obtain ⟨y, hy, hs⟩ := Option.bind_eq_some_iff.mp hs
    refine ⟨m, rest, v, g, rfl, hv, hg, ?_⟩
    rcases onWrite_spec hv hdims hg s.fresh (s.clients c).source with
      ⟨hget, hw⟩ | ⟨hget, v', b, hw, hds, htv, hl, hblocks⟩
    · obtain rfl := Option.some.inj (hw.symm.trans hy)
      exact .inl ⟨hget, (Option.some.inj hs).symm⟩
    · obtain rfl := Option.some.inj (hw.symm.trans hy)
      obtain ⟨h, hrun, rfl⟩ := Option.map_eq_some_iff.mp hs
      exact .inr ⟨hget, v', b, h, hds, htv, hl, hblocks, hrun, rfl⟩

theorem handle_inv (hI : s.Inv config) {c : C} (hfresh : s.Fresh (.handle c))
    (hs : s.step (.handle c) = some s') : s'.Inv config ∧ s.Deallocates s' := by
  obtain ⟨m, rest, v, g, hq, hv, hg, ⟨hget, -⟩ | ⟨-, v', b, h, hds, htv, hl, hblocks, hrun, rfl⟩⟩ :=
    handle_cases hI hs
  · exact absurd (hfresh m rest hq v hv) hget
  · obtain ⟨g', -, hg', hfree⟩ := hI.ledger.lent c m (hq ▸ List.mem_cons_self)
    obtain rfl : g = g' := Option.some.inj (hg.symm.trans hg')
    obtain ⟨h', hrun', hsettled, hlive, hlog, howner⟩ := Heap.adopt_spec hI.homes.settled
      hI.homes.local_not_live hI.homes.fresh_not_live hfree (v.boundsSize (bounds m.dims))
    obtain rfl : h' = h := by
      simp only [adopting, hg, hv, Option.elim_some] at hrun
      exact Option.some.inj (hrun'.symm.trans hrun)
    have hstores : ∀ id x, (s.vars.set m.id v').Stores id x ↔
        s.vars.Stores id x ∨ (id = m.id ∧ x = b) := by
      intro id x
      rw [Variables.stores_set, hblocks]
      by_cases hid : id = m.id
      · subst hid
        rw [Variables.stores_of_eq_some hv]
        simp
      · simp [hid]
    refine ⟨⟨hI.clients, hI.idle, hI.configured.set hv htv hl, fun c' m' hm' => ?_,
      hI.homes.adopt hds hstores hsettled hlive, hI.ledger.adopt hq hg howner⟩, ?_⟩
    · exact hI.formed c' m' (mem_of_mem_update_tail hq hm')
    · exact deallocates_nothing (fun _ => rfl) hlog fun id x hx => (hstores id x).mpr (.inl hx)

/-- A message for a block that is there leaves its region without an owner. -/
theorem handle_leaks (hI : s.Inv config) {c : C} (hnot : ¬ s.Fresh (.handle c))
    (hs : s.step (.handle c) = some s') : ¬ s'.Accounted := by
  obtain ⟨m, rest, v, g, hq, hv, hg, ⟨-, rfl⟩ | ⟨hget, -⟩⟩ := handle_cases hI hs
  · obtain ⟨g', hg', hh, hfree⟩ := hI.ledger.lent c m (hq ▸ List.mem_cons_self)
    obtain rfl : g = g' := Option.some.inj (hg.symm.trans hh)
    intro hacc
    obtain ⟨p, ⟨-, howns⟩, -⟩ := hacc.1 g hg' fun ⟨c', m', hm', he⟩ =>
      hI.ledger.not_inFlight hq hm' (he.trans hg.symm)
    exact hfree _ howns
  · refine absurd (fun m' rest' hq' v' hv' => ?_) hnot
    obtain ⟨rfl, -⟩ := List.cons.inj (hq.symm.trans hq')
    obtain rfl := Option.some.inj (hv.symm.trans hv')
    exact hget

theorem configured_update (hI : s.Inv config) {c : C} {client : Client G}
    (hclient : client.vars.Configured config) (c' : C) :
    (Function.update s.clients c client c').vars.Configured config := by
  by_cases hc : c' = c
  · rw [hc, Function.update_self]
    exact hclient
  · rw [Function.update_of_ne hc]
    exact hI.clients c'

/-- A call that sends nothing and takes no memory changes its client alone. -/
theorem client_inv (hI : s.Inv config) {c : C} {client : Client G}
    (hclient : client.vars.Configured config) :
    ({ s with clients := Function.update s.clients c client } : State C G).Inv config ∧
      s.Deallocates { s with clients := Function.update s.clients c client } :=
  ⟨⟨configured_update hI hclient, hI.idle, hI.configured, hI.formed, hI.homes, hI.ledger⟩,
    deallocates_nothing (fun _ => rfl) rfl fun _ _ hb => hb⟩

theorem write_inv (hI : s.Inv config) {c : C} {id block : ℤ} {grant : Option (Option G)}
    (hs : s.step (.write c id block grant) = some s') : s'.Inv config ∧ s.Deallocates s' := by
  simp only [step] at hs
  rcases hw : (s.clients c).write id block (some (granting grant)) with ⟨client, st, _ | m⟩
  · obtain ⟨hk, -⟩ : Client.Keeps config _ _ ∧ _ := Client.write_spec hw
    rw [hw] at hs
    obtain rfl := Option.some.inj hs
    exact client_inv hI (hk.configured (hI.clients c))
  · obtain ⟨hk, hform⟩ : Client.Keeps config _ _ ∧ _ := Client.write_spec hw
    obtain ⟨⟨hid, -, v, hv, hdims⟩, -⟩ := hform m rfl
    rw [hw] at hs
    obtain ⟨g, hg, hs⟩ := Option.bind_eq_some_iff.mp hs
    split_ifs at hs with hfree
    obtain ⟨h, hrun, rfl⟩ := Option.map_eq_some_iff.mp hs
    obtain ⟨hidle, hlog⟩ := Heap.idle_of_lend (hI.idle c) hrun
    refine ⟨⟨configured_update hI (hk.configured (hI.clients c)), fun c' => ?_, hI.configured,
      fun c' m' hm' => ?_, hI.homes, hI.ledger.send hg hfree⟩,
      deallocates_nothing (fun c' => ?_) rfl fun _ _ hb => hb⟩
    · by_cases hc : c' = c
      · subst hc
        simpa using hidle
      · simpa [hc] using hI.idle c'
    · rcases mem_update_append.mp hm' with hm' | ⟨-, rfl⟩
      · exact hI.formed c' m' hm'
      · have hx := hI.clients c id
        rw [hv] at hx
        exact ⟨_, hid ▸ hx.symm, hdims⟩
    · by_cases hc : c' = c
      · subst hc
        simpa using hlog
      · simp [hc]

theorem clear_inv (hI : s.Inv config) {id : ℤ} {keep : Block ℕ → Bool}
    (hs : s.step (.clear id keep) = some s') : s'.Inv config ∧ s.Deallocates s' := by
  simp only [step] at hs
  cases hv : s.vars id with
  | none => simp [hv] at hs
  | some v =>
    rw [hv] at hs
    obtain ⟨h, hrun, rfl⟩ := Option.map_eq_some_iff.mp hs
    set gone := (v.blocks.elems.filter fun b => !keep b).map Block.dataspace
    have hmem : ∀ o, o ∈ gone ↔ ∃ b ∈ v.blocks, keep b = false ∧ b.dataspace = o :=
      fun o => mem_dropped
    have hin : ∀ b ∈ v.blocks, s.vars.Stores id b := fun b hb =>
      (Variables.stores_of_eq_some hv).mpr hb
    have hnodup : gone.Nodup := by
      refine List.Nodup.map_on (fun b hb b' hb' he => ?_)
        ((List.Nodup.of_map _ v.blocks.nodup).filter _)
      exact (hI.homes.apart id b id b' (hin b (List.mem_filter.mp hb).1)
        (hin b' (List.mem_filter.mp hb').1) he).2
    have hlive : ∀ o ∈ gone, o ∈ s.server.live := by
      intro o ho
      obtain ⟨b, hb, -, rfl⟩ := (hmem o).mp ho
      exact hI.homes.stored id b (hin b hb)
    obtain ⟨h', gs, hrun', hsettled, hlive', hlog, hregions, howner⟩ :=
      Heap.destroy_owners hnodup hI.homes.settled hlive
    obtain rfl : h' = h := Option.some.inj (hrun'.symm.trans hrun)
    have hstores := hI.homes.stores_filter hv keep
    have hgs := Heap.mem_regions hregions
    have hdrop : h'.deallocated.drop s.server.deallocated.length = gs := by
      rw [hlog, List.drop_left]
    refine ⟨⟨hI.clients, hI.idle, hI.configured.set hv rfl rfl, hI.formed,
      hI.homes.clear hstores hsettled hlive', ?_⟩, fun _ => rfl, gs, hlog,
      Heap.nodup_regions hregions hnodup, fun g => ?_⟩
    · have hledger := hI.ledger.clear hgs howner
      rw [← hdrop] at hledger
      exact hledger
    · rw [hgs]
      constructor
      · rintro ⟨o, ho, howns⟩
        obtain ⟨b, hb, -, rfl⟩ := (hmem o).mp ho
        exact ⟨id, b, hin b hb, fun hb' => ((hstores id b).mp hb').2 ho, howns⟩
      · rintro ⟨id', b, hb, hnot, howns⟩
        refine ⟨b.dataspace, ?_, howns⟩
        by_contra ho
        exact hnot ((hstores id' b).mpr ⟨hb, ho⟩)

theorem leave_inv (hI : s.Inv config) {c : C} (hs : s.step (.leave c) = some s') :
    s'.Inv config ∧ s.Deallocates s' := by
  obtain ⟨h, hrun, rfl⟩ := Option.map_eq_some_iff.mp hs
  obtain ⟨hidle, hlog⟩ := Heap.idle_of_leave (hI.idle c) hrun
  refine ⟨⟨hI.clients, fun c' => ?_, hI.configured, hI.formed, hI.homes, hI.ledger⟩,
    deallocates_nothing (fun c' => ?_) rfl fun _ _ hb => hb⟩
  · by_cases hc : c' = c
    · subst hc
      simpa using hidle
    · simpa [hc] using hI.idle c'
  · by_cases hc : c' = c
    · subst hc
      simpa using hlog
    · simp [hc]

theorem step_inv {a : Action C G} (hI : s.Inv config) (hfresh : s.Fresh a)
    (hs : s.step a = some s') : s'.Inv config ∧ s.Deallocates s' := by
  cases a with
  | write c id block grant => exact write_inv hI hs
  | leave c => exact leave_inv hI hs
  | endIteration c =>
    obtain rfl := Option.some.inj hs
    exact client_inv hI (hI.clients c)
  | handle c => exact handle_inv hI hfresh hs
  | clear id keep => exact clear_inv hI hs

/-! ## Whole runs -/

/-- A message that has arrived can be handled. -/
theorem handle_isSome (hI : s.Inv config) {c : C} {m : WriteMessage (Option G)}
    {rest : List (WriteMessage (Option G))} (hq : s.queue c = m :: rest) :
    ∃ s', s.step (.handle c) = some s' := by
  have hmem : m ∈ s.queue c := hq ▸ List.mem_cons_self
  obtain ⟨x, hx, hdims⟩ := hI.formed c m hmem
  obtain ⟨g, -, hg, hfree⟩ := hI.ledger.lent c m hmem
  have hconf := hI.configured m.id
  rw [hx] at hconf
  obtain ⟨v, hv, rfl⟩ := Option.map_eq_some_iff.mp hconf
  simp only [step, hq]
  rcases onWrite_spec hv hdims hg s.fresh (s.clients c).source with
    ⟨-, hw⟩ | ⟨-, v', b, hw, -⟩
  · rw [hw]
    exact ⟨_, rfl⟩
  · obtain ⟨h, hrun, -⟩ := Heap.adopt_spec hI.homes.settled hI.homes.local_not_live
      hI.homes.fresh_not_live hfree (v.boundsSize (bounds m.dims))
    have hrun' : StepSystem.run Heap.step s.server (s.adopting m) = some h := by
      simpa only [adopting, hg, hv, Option.elim_some] using hrun
    rw [hw]
    simp only [Option.bind_some, hrun', Option.map_some]
    exact ⟨_, rfl⟩

theorem accounts_iff (hI : s.Inv config) (a : Action C G) : s.Accounts a ↔ s.Fresh a := by
  constructor
  · intro h
    cases a with
    | handle c =>
      cases hq : s.queue c with
      | nil =>
        intro m rest hq'
        exact absurd (hq.symm.trans hq') nofun
      | cons m rest =>
        obtain ⟨s', hs⟩ := handle_isSome hI hq
        by_contra hnot
        exact handle_leaks hI hnot hs (h s' hs).1
    | _ => trivial
  · intro h s' hs
    obtain ⟨hI', hd⟩ := step_inv hI h hs
    exact ⟨hI'.accounted, hd⟩

theorem inv_initial (config : ℤ → Option (Bool × Layout)) (source : C → ℤ) (numDomains : ℤ) :
    (initial config source numDomains : State C G).Inv config := by
  have hlive : ∀ o, o ∉ (Heap.initial : Heap (Option ℕ) G).live := fun o => Finset.notMem_empty o
  have hstores : ∀ id b, ¬ (Variables.new config : Variables ℕ).Stores id b :=
    fun _ _ => Variables.not_stores_new
  refine ⟨fun _ => Variables.configured_new config, fun _ => .inl rfl, Variables.configured_new config,
    nofun, ⟨⟨Heap.counted_initial, fun o ho => absurd ho (hlive o)⟩, fun o ho => absurd ho (hlive o),
      fun id b hb => absurd hb (hstores id b), fun o ho => absurd ho (hlive o),
      fun id b _ _ hb => absurd hb (hstores id b)⟩,
    ⟨nofun, fun _ => List.nodup_nil, nofun, fun o g ho => ?_, fun g hg => ?_⟩⟩
  · obtain ⟨c, hc, -⟩ := ho
    exact absurd hc.1 (hlive o)
  · exact absurd hg (Finset.notMem_empty g)

def writeTwice : List (Action Unit ℕ) :=
  [.write () 0 0 (some (some 0)), .leave (), .write () 0 0 (some (some 1)), .leave (),
    .handle (), .handle ()]

end State
end Damaris.Server.Regions
