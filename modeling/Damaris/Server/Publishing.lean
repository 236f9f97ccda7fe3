import Mathlib.Tactic
import Damaris.Server.Rounds

/-!
# What the messages of clients leave in a variable

A server that handles the messages of a client in order stores, under each key,
the block that the first of them describes. Only the flag of a stored block
changes later, as long as nothing is cleared.
-/
namespace Damaris.Iteration

open Damaris.Data Damaris.Msg

variable {G : Type*} {config : ℤ → Option (Bool × Layout)}

/-- The first message that writes the block of an iteration. -/
def published (ops : List (Sent G)) (id k bid : ℤ) : Option (WriteMessage (Option G)) :=
  ops.findSome? fun
    | .write wr | .commit wr =>
      if wr.id = id ∧ wr.iteration = k ∧ wr.block = bid then some wr else none
    | _ => none

/-- The block that a message describes. -/
def made (layout : Layout) (source : ℤ) (wr : WriteMessage (Option G)) : Block G :=
  ((Block.new source wr.iteration wr.block layout).setDataSpace wr.handle).setBounds
    layout.dimensions (bounds wr.dims)

/-- A block but for its flag. -/
def plain (b : Block G) : Block G := { b with readOnly := false }

@[simp] theorem plain_made (layout : Layout) (source : ℤ) (wr : WriteMessage (Option G)) :
    plain (made layout source wr) = made layout source wr := rfl

@[simp] theorem plain_setReadOnly (ro : Bool) (b : Block G) : plain (b.setReadOnly ro) = plain b := by
  unfold Block.setReadOnly
  split <;> rfl

@[simp] theorem key_made (layout : Layout) (source : ℤ) (wr : WriteMessage (Option G)) :
    (made layout source wr).key = (source, wr.iteration, wr.block) := rfl

@[simp] theorem key_plain (b : Block G) : (plain b).key = b.key := rfl

@[simp] theorem published_append (ops ops' : List (Sent G)) (id k bid : ℤ) :
    published (ops ++ ops') id k bid = (published ops id k bid).or (published ops' id k bid) :=
  List.findSome?_append

@[simp] theorem published_nil (id k bid : ℤ) : published ([] : List (Sent G)) id k bid = none := rfl

/-! ## When messages are sent -/

/-- What holds of a message that a client sends in iteration `n`. -/
def Fits (config : ℤ → Option (Bool × Layout)) (n : ℤ) : Sent G → Prop
  | .write wr => wr.iteration = n ∧ wr.handle ≠ none ∧
      ∀ x, config wr.id = some x → wr.dims.length = x.2.dimensions
  | .commit wr => wr.iteration = n ∧ ∀ x, config wr.id = some x → wr.dims.length = x.2.dimensions
  | _ => True

theorem fits_request {client : Client G} (hc : client.vars.Configured config)
    (req : Client.Request G) : Client.Keeps config client (client.request req).1 ∧
      ∀ op ∈ (client.request req).2.toList, Fits config client.iteration op := by
  have hdims : ∀ {id v} {n : ℕ}, client.vars id = some v → n = v.layout.dimensions →
      ∀ x, config id = some x → n = x.2.dimensions := by
    intro id v n hv hn x hx
    have hconf := hc id
    rw [hv, Option.map_some] at hconf
    rw [hn, ← Option.some.inj (hconf.trans hx)]
  cases req with
  | write id block buffer =>
    obtain ⟨hk, hm⟩ : Client.Keeps config _ _ ∧ _ :=
      Client.write_spec (Eq.refl (client.write id block buffer))
    refine ⟨hk, fun op hop => ?_⟩
    obtain ⟨m, hm', rfl⟩ := Option.map_eq_some_iff.mp (Option.mem_toList.mp hop)
    obtain ⟨⟨rfl, hi, v, hv, hd⟩, hhandle⟩ := hm m hm'
    exact ⟨hi, hhandle, hdims hv hd⟩
  | alloc id block buffer =>
    obtain ⟨hk, -⟩ : Client.Keeps config _ _ ∧ _ :=
      Client.alloc_spec (Eq.refl (client.alloc id block buffer))
    exact ⟨hk, fun op hop => absurd hop List.not_mem_nil⟩
  | commit id block iteration =>
    obtain ⟨hk, -, hm⟩ : Client.Keeps config _ _ ∧ _ :=
      Client.commit_spec (Eq.refl (client.commit id block iteration))
    refine ⟨hk, fun op hop => ?_⟩
    obtain ⟨m, hm', rfl⟩ := Option.map_eq_some_iff.mp (Option.mem_toList.mp hop)
    obtain ⟨⟨rfl, hi, v, hv, hd⟩, -⟩ := hm m hm'
    exact ⟨hi, hdims hv hd⟩
  | clear id block iteration =>
    obtain ⟨hk, -⟩ : Client.Keeps config _ _ ∧ _ :=
      Client.clear_spec (Eq.refl (client.clear id block iteration))
    refine ⟨hk, fun op hop => ?_⟩
    obtain ⟨m, -, rfl⟩ := Option.map_eq_some_iff.mp (Option.mem_toList.mp hop)
    trivial
  | setPosition id block p =>
    exact ⟨Client.setPosition_keeps config client id block p,
      fun op hop => absurd hop List.not_mem_nil⟩
  | _ =>
    refine ⟨.refl config client, fun op hop => ?_⟩
    obtain rfl := Option.some.inj (Option.mem_toList.mp hop)
    trivial

/-- A client's messages from iteration `n` on. -/
def Dated (config : ℤ → Option (Bool × Layout)) : ℕ → List (Sent G) → Prop
  | _, [] => True
  | n, op :: ops => Fits config n op ∧ Dated config (n + (ends [op]).length) ops

theorem dated_append {n : ℕ} {ops ops' : List (Sent G)} :
    Dated config n (ops ++ ops') ↔
      Dated config n ops ∧ Dated config (n + (ends ops).length) ops' := by
  induction ops generalizing n with
  | nil => simp [Dated]
  | cons op ops ih =>
    rw [List.cons_append, Dated, Dated, ih, length_ends_cons op ops, and_assoc, Nat.add_assoc]

theorem dated_singleton {n : ℕ} {op : Sent G} (h : Fits config n op) : Dated config n [op] :=
  ⟨h, trivial⟩

theorem published_singleton {n : ℤ} {op : Sent G} (h : Fits config n op) {id k bid : ℤ}
    (hk : k ≠ n) :
    published [op] id k bid = none := by
  cases op with
  | write wr => simp [published, h.1, Ne.symm hk]
  | commit wr => simp [published, h.1, Ne.symm hk]
  | _ => rfl

/-- Messages write to the iterations they are sent in only. -/
theorem between_of_published {n : ℕ} {ops : List (Sent G)} (h : Dated config n ops) {id k bid : ℤ}
    (hp : published ops id k bid ≠ none) : (n : ℤ) ≤ k ∧ k ≤ n + (ends ops).length := by
  induction ops generalizing n with
  | nil => exact absurd rfl hp
  | cons op ops ih =>
    have hlen := length_ends_cons op ops
    by_cases hk : k = n
    · omega
    · have hcons : published ([op] ++ ops) id k bid = published ops id k bid := by
        rw [published_append, published_singleton h.1 hk, Option.none_or]
      have := ih h.2 (hcons ▸ hp)
      push_cast at this
      omega

/-! ## What the handlers store -/

/-- The look-up of a block but for its flag. -/
def look (v : Variable G) (key : ℤ × ℤ × ℤ) : Option (Block G) := (v.blocks.find key).map plain

/-- Writing to the flag of a stored block is not seen. -/
theorem look_store_setReadOnly {v : Variable G} {b : Block G} (hb : v.blocks.find b.key = some b)
    (ro : Bool) (key : ℤ × ℤ × ℤ) : look (v.store (b.setReadOnly ro)) key = look v key := by
  rw [look, Variable.store, KeyedStore.find_replace, Block.key_setReadOnly, look]
  split_ifs with hkey
  · rw [hkey, hb, Option.map_some, Option.map_some, plain_setReadOnly, Option.map_some]
  · rfl

theorem retrieve_made {v v' : Variable G} {source iteration bid : ℤ} {handle : Option G} {size : ℕ}
    {b : Block G} (htv : v.timeVarying = true) (hpos : v.positions = fun _ => none)
    (hr : v.retrieve (some shared) source iteration bid handle size = (v', some b)) :
    b = (Block.new source iteration bid v.layout).setDataSpace handle := by
  unfold Variable.retrieve at hr
  simp only [shared] at hr
  split_ifs at hr
  · exact absurd (Prod.mk.inj hr).2 nofun
  · cases handle with
    | none => exact absurd (Prod.mk.inj hr).2 nofun
    | some g =>
      obtain ⟨-, hb⟩ := Prod.mk.inj hr
      rw [← Option.some.inj hb]
      simp [Variable.place, Variable.attachBlock, hpos, Variable.adopt, Variable.normalise, htv]

/-- The block that `Retrieve` returns for a message; no position moves it. -/
theorem retrieveBounds_made {v v' : Variable G} {source : ℤ} {wr : WriteMessage (Option G)}
    {b : Block G} (htv : v.timeVarying = true) (hpos : v.positions = fun _ => none)
    (hr : v.retrieveBounds (some shared) source wr.iteration wr.block (bounds wr.dims) wr.handle =
      some (v', some b)) : b = made v.layout source wr := by
  unfold Variable.retrieveBounds at hr
  split_ifs at hr with hd hcovers
  · exact absurd (Option.some.inj hr) nofun
  · rcases hret : v.retrieve (some shared) source wr.iteration wr.block wr.handle
      (v.boundsSize (bounds wr.dims)) with ⟨w, _ | c⟩
    · rw [hret] at hr
      exact absurd (Option.some.inj hr) nofun
    · rw [hret] at hr
      obtain ⟨-, hb⟩ := Prod.mk.inj (Option.some.inj hr)
      rw [← Option.some.inj hb, made, retrieve_made htv hpos hret]
  · rcases hret : v.retrieve (some shared) source wr.iteration wr.block wr.handle
      (v.boundsSize (bounds wr.dims)) with ⟨w, _ | c⟩ <;> rw [hret] at hr
    · exact absurd (Option.some.inj hr) nofun
    · exact absurd hr nofun

/-- A message's block is stored if there is none yet, and only then returned. -/
theorem retrieveBounds_look {v : Variable G} {source : ℤ} {wr : WriteMessage (Option G)}
    {x : Variable G × Option (Block G)} (htv : v.timeVarying = true)
    (hpos : v.positions = fun _ => none) (hdims : wr.dims.length = v.layout.dimensions)
    (hx : v.retrieveBounds (some shared) source wr.iteration wr.block (bounds wr.dims) wr.handle =
      some x) (hhandle : wr.handle ≠ none ∨ x.2 ≠ none) :
    (∀ b, x.2 = some b → x.1.blocks.find b.key = some b) ∧ ∀ key, look x.1 key =
      (look v key).or
        (if key = (source, wr.iteration, wr.block) then some (made v.layout source wr) else none) := by
  have hadds := Variable.retrieveBounds_adds hx
  have hnorm : v.normalise wr.iteration = wr.iteration := if_pos htv
  rw [hnorm] at hadds
  obtain ⟨w, r, hr, hiff, -⟩ := Variables.retrieveBounds_message v shared source wr.iteration
    wr.block wr.dims wr.handle
  obtain rfl := Option.some.inj (hr.symm.trans hx)
  have hget : v.getBlock source wr.iteration wr.block =
      v.blocks.find (source, wr.iteration, wr.block) := by
    rw [Variable.getBlock, hnorm]
  cases r with
  | none =>
    obtain rfl := hadds.refused rfl
    refine ⟨fun b hb => absurd hb.symm (Option.some_ne_none b), fun key => ?_⟩
    split_ifs with hkey
    · -- the key is taken
      have htaken : w.blocks.find key ≠ none := by
        intro hnone
        refine hiff.mpr ⟨hdims, ?_, hhandle.resolve_right fun h => h rfl⟩ rfl
        rw [hget, ← hkey]
        exact hnone
      obtain ⟨b, hb⟩ := Option.ne_none_iff_exists'.mp htaken
      rw [look, hb]
      rfl
    · rw [Option.or_none]
  | some b =>
    have hfree := hadds.free (Option.some_ne_none b)
    have hkeyb := hadds.filed b rfl
    have hfind := KeyedStore.find_of_added (hadds.added b rfl) (by rw [hkeyb]; exact hfree)
    have hmade : b = made v.layout source wr := retrieveBounds_made htv hpos hr
    refine ⟨fun b' hb' => ?_, fun key => ?_⟩
    · obtain rfl := Option.some.inj hb'
      rw [hfind, if_pos rfl]
    · rw [look, hfind, hkeyb]
      split_ifs with hkey
      · rw [look, hkey, hfree, hmade]
        rfl
      · rw [Option.or_none, look]

/-- What a message adds to the look-ups of a variable, where nothing is yet. -/
def gained (layout : Layout) (source : ℤ) (op : Sent G) (id : ℤ) (key : ℤ × ℤ × ℤ) :
    Option (Block G) :=
  if key.1 = source then (published [op] id key.2.1 key.2.2).map (made layout source) else none

theorem gained_of_published {source : ℤ} {op : Sent G} (h : ∀ id k bid, published [op] id k bid = none)
    (id : ℤ) (layout : Layout) (key : ℤ × ℤ × ℤ) : gained layout source op id key = none := by
  rw [gained, h, Option.map_none, ite_self]

theorem gained_write (layout : Layout) (source : ℤ) (wr : WriteMessage (Option G)) (id : ℤ)
    (key : ℤ × ℤ × ℤ) : gained layout source (.write wr) id key =
      if id = wr.id ∧ key = (source, wr.iteration, wr.block) then some (made layout source wr)
      else none := by
  obtain ⟨s, k, bid⟩ := key
  simp only [gained, published, List.findSome?_cons, List.findSome?_nil, Prod.mk.injEq]
  by_cases hs : s = source
  · by_cases hw : wr.id = id ∧ wr.iteration = k ∧ wr.block = bid
    · obtain ⟨rfl, rfl, rfl⟩ := hw
      simp [hs]
    · have hw' : ¬ (id = wr.id ∧ s = source ∧ k = wr.iteration ∧ bid = wr.block) :=
        fun h => hw ⟨h.1.symm, h.2.2.1.symm, h.2.2.2.symm⟩
      rw [if_pos hs, if_neg hw, if_neg hw']
      rfl
  · rw [if_neg hs, if_neg fun h => hs h.2.1]

/-- How the handler of a message changes one variable. -/
structure Gains (source : ℤ) (op : Sent G) (id : ℤ) (v v' : Variable G) : Prop where
  timeVarying : v'.timeVarying = v.timeVarying
  layout : v'.layout = v.layout
  positions : v'.positions = v.positions
  look : v.timeVarying = true → v.positions = (fun _ => none) →
    ∀ key, look v' key = (look v key).or (gained v.layout source op id key)

theorem Gains.refl {source : ℤ} {op : Sent G} {id : ℤ} (v : Variable G)
    (h : ∀ key, gained v.layout source op id key = none) : Gains source op id v v :=
  ⟨rfl, rfl, rfl, fun _ _ key => by rw [h key, Option.or_none]⟩

/-- Setting one variable is what the handlers do. -/
theorem gains_set {vs : Variables G} {source : ℤ} {op : Sent G} {id₀ : ℤ} {v₀ v₀' : Variable G}
    (hv₀ : vs id₀ = some v₀) (hg : Gains source op id₀ v₀ v₀')
    (hother : ∀ id, id ≠ id₀ → ∀ layout key, gained layout source op id key = none) {id : ℤ}
    {v' : Variable G} (hv' : vs.set id₀ v₀' id = some v') :
    ∃ v, vs id = some v ∧ Gains source op id v v' := by
  by_cases hid : id = id₀
  · subst hid
    rw [Variables.set_same] at hv'
    obtain rfl := Option.some.inj hv'
    exact ⟨v₀, hv₀, hg⟩
  · rw [Variables.set_of_ne hid] at hv'
    exact ⟨v', hv', .refl v' (hother id hid v'.layout)⟩

/-- A message about one variable adds nothing to the others. -/
theorem gained_write_of_ne {source : ℤ} {wr : WriteMessage (Option G)} {id : ℤ} (hid : id ≠ wr.id)
    (layout : Layout) (key : ℤ × ℤ × ℤ) : gained layout source (.write wr) id key = none := by
  rw [gained_write, if_neg fun h => hid h.1]

section Handled

variable {v : Variable G} {source : ℤ} {wr : WriteMessage (Option G)}

theorem onWrite_gains {y : Variable G × Option (Block G)}
    (hdims : wr.dims.length = v.layout.dimensions) (hhandle : wr.handle ≠ none)
    (hret : v.retrieveBounds (some shared) source wr.iteration wr.block (bounds wr.dims) wr.handle =
      some y) : Gains source (.write wr) wr.id v y.1 := by
  have hadds := Variable.retrieveBounds_adds hret
  refine ⟨hadds.timeVarying, hadds.layout, hadds.positions, fun htv hpos key => ?_⟩
  rw [(retrieveBounds_look htv hpos hdims hret (.inl hhandle)).2, gained_write]
  simp

theorem onCommit_gains {w : Variable G} {b : Block G} (hdims : wr.dims.length = v.layout.dimensions)
    (hret : v.retrieveBounds (some shared) source wr.iteration wr.block (bounds wr.dims) wr.handle =
      some (w, some b)) : Gains source (.commit wr) wr.id v (w.store (b.setReadOnly true)) := by
  have hadds := Variable.retrieveBounds_adds hret
  refine ⟨hadds.timeVarying, hadds.layout, hadds.positions, fun htv hpos key => ?_⟩
  obtain ⟨hstored, hlook⟩ := retrieveBounds_look htv hpos hdims hret (.inr nofun)
  rw [look_store_setReadOnly (hstored b rfl), hlook]
  refine congrArg _ (Eq.trans ?_ (gained_write v.layout source wr wr.id key).symm)
  simp

theorem onClear_gains {m : ClearMessage} {b : Block G}
    (hget : v.getBlock source m.iteration m.block = some b) :
    Gains source (.clear m) m.id v (v.store (b.setReadOnly false)) := by
  have hb : v.blocks.find b.key = some b := by
    obtain ⟨hmem, -⟩ := KeyedStore.find_eq_some.mp hget
    exact KeyedStore.find_eq_some.mpr ⟨hmem, rfl⟩
  refine ⟨rfl, rfl, rfl, fun _ _ key => ?_⟩
  rw [look_store_setReadOnly hb, gained_of_published (fun _ _ _ => rfl), Option.or_none]

end Handled

/-- What every handler does: it stores the block that its message describes,
under a key that is free. -/
theorem receive_gains {vs vs' : Variables G} {source n : ℤ} {op : Sent G}
    (hc : vs.Configured config) (hop : Fits config n op) (h : receive vs source op = some vs')
    {id : ℤ} {v' : Variable G} (hv' : vs' id = some v') :
    ∃ v, vs id = some v ∧ Gains source op id v v' := by
  have hsame : (∀ layout key, gained layout source op id key = none) → vs' = vs →
      ∃ v, vs id = some v ∧ Gains source op id v v' := by
    rintro hnone rfl
    exact ⟨v', hv', .refl v' (hnone v'.layout)⟩
  have habsent : ∀ {k}, vs k = none → vs' = vs → id ≠ k := by
    rintro k hnone rfl rfl
    rw [hnone] at hv'
    cases hv'
  have hdims : ∀ {wr : WriteMessage (Option G)} {v},
      (∀ x, config wr.id = some x → wr.dims.length = x.2.dimensions) → vs wr.id = some v →
        wr.dims.length = v.layout.dimensions := by
    intro wr v hd hv
    exact hd (v.timeVarying, v.layout) (by rw [← hc wr.id, hv, Option.map_some])
  cases op with
  | write wr =>
    obtain ⟨x, hx, rfl⟩ := Option.map_eq_some_iff.mp h
    rcases Variables.onWrite_cases hx with ⟨hvs, hnone⟩ | ⟨v, y, hv, hvs, hret⟩
    · exact hsame (gained_write_of_ne (habsent hnone hvs)) hvs
    · rw [hvs] at hv'
      exact gains_set hv (onWrite_gains (hdims hop.2.2 hv) hop.2.1 hret)
        (fun _ => gained_write_of_ne) hv'
  | commit wr =>
    rcases Variables.onCommit_cases h with ⟨hvs, hnone⟩ | ⟨v, w, b, hv, hvs, hret⟩
    · exact hsame (gained_write_of_ne (habsent hnone hvs)) hvs
    · rw [hvs] at hv'
      exact gains_set hv (onCommit_gains (hdims hop.2 hv) hret) (fun _ => gained_write_of_ne) hv'
  | clear m =>
    have hnone := @gained_of_published G source (.clear m) fun _ _ _ => rfl
    rcases Variables.onClear_cases h with ⟨hvs, -⟩ | ⟨v, b, hv, hvs, hget⟩
    · exact hsame (hnone id) hvs
    · rw [hvs] at hv'
      exact gains_set hv (onClear_gains hget) (fun id _ => hnone id) hv'
  | _ =>
    obtain rfl := Option.some.inj h
    exact hsame (gained_of_published (fun _ _ _ => rfl) id) rfl

theorem receive_configured {vs vs' : Variables G} {source : ℤ} {op : Sent G}
    (hc : vs.Configured config) (h : receive vs source op = some vs') : vs'.Configured config := by
  cases op with
  | write wr =>
    obtain ⟨x, hx, rfl⟩ := Option.map_eq_some_iff.mp h
    rcases Variables.onWrite_cases hx with ⟨hvs, -⟩ | ⟨v, y, hv, hvs, hret⟩
    · rw [hvs]
      exact hc
    · have hadds := Variable.retrieveBounds_adds hret
      rw [hvs]
      exact hc.set hv hadds.timeVarying hadds.layout
  | commit wr =>
    rcases Variables.onCommit_cases h with ⟨rfl, -⟩ | ⟨v, w, b, hv, rfl, hret⟩
    · exact hc
    · have hadds := Variable.retrieveBounds_adds hret
      exact hc.set hv hadds.timeVarying hadds.layout
  | clear m =>
    rcases Variables.onClear_cases h with ⟨rfl, -⟩ | ⟨v, b, hv, rfl, -⟩
    · exact hc
    · exact hc.set hv rfl rfl
  | _ =>
    obtain rfl := Option.some.inj h
    exact hc

theorem collect_configured {vs : Variables G} (hc : vs.Configured config) (iteration : ℤ) :
    (collect vs iteration).Configured config := by
  intro id
  rw [← hc id, collect, Option.map_map]
  refine Option.map_congr fun v _ => ?_
  simp only [Function.comp_apply]
  split_ifs
  · unfold Variable.clearUpToIteration
    split_ifs <;> rfl
  · rfl

/-- The garbage collector takes nothing of a later iteration. -/
theorem collect_look {vs : Variables G} {iteration : ℤ} {id : ℤ} {v' : Variable G}
    (hv' : collect vs iteration id = some v') :
    ∃ v, vs id = some v ∧ v'.timeVarying = v.timeVarying ∧ v'.layout = v.layout ∧
      v'.positions = v.positions ∧ (∀ b ∈ v'.blocks, b ∈ v.blocks) ∧
        ∀ key : ℤ × ℤ × ℤ, iteration < key.2.1 → look v' key = look v key := by
  obtain ⟨v, hv, rfl⟩ := Option.map_eq_some_iff.mp hv'
  refine ⟨v, hv, ?_⟩
  by_cases htv : v.timeVarying = true
  · rw [if_pos htv]
    cases hclear : v.clearUpToIteration iteration with
    | none => exact ⟨rfl, rfl, rfl, fun _ hb => hb, fun _ _ => rfl⟩
    | some w =>
      unfold Variable.clearUpToIteration at hclear
      split_ifs at hclear
      obtain rfl := Option.some.inj hclear
      refine ⟨rfl, rfl, rfl, fun b hb => (KeyedStore.mem_filter.mp hb).1, fun key hkey => ?_⟩
      rw [look, Option.getD_some, KeyedStore.find_filter, look]
      cases hfind : v.blocks.find key with
      | none => rfl
      | some b =>
        obtain ⟨-, hb⟩ := KeyedStore.find_eq_some.mp hfind
        have hkeep : ¬ (-1 ≤ b.iteration ∧ b.iteration ≤ iteration) := by
          rw [← hb] at hkey
          rintro ⟨-, hle⟩
          exact absurd hkey hle.not_gt
        rw [Option.filter_some, if_pos (decide_eq_true hkeep)]
  · rw [if_neg htv]
    exact ⟨rfl, rfl, rfl, fun _ hb => hb, fun _ _ => rfl⟩

end Damaris.Iteration
