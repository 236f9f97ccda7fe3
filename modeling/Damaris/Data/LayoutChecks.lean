import Mathlib.Tactic
import Damaris.Data.GhostZones
import Damaris.Data.LayoutObservers

/-!
# Which layouts `New` accepts

`BoxLayout::New` refuses a name with a slash and a descriptor with an unknown name. What
`InterpretDimensions` finds wrong is logged, and the layout is returned all the same, so that
its three vectors are related only if the descriptors are.
-/
namespace Damaris

open Calc BoxLayout

/-- `none` where an element past the end is read. -/
def Vectors.getGlobalExtentAlong (v : Vectors) (dim : ℕ) : Option ℕ :=
  if dim < v.extents.length then v.globalExtents[dim]?.map Data.toSize else some 1

def Vectors.getGhostAlong (v : Vectors) (dim : ℕ) : Option (ℕ × ℕ) :=
  if dim < v.extents.length then v.ghosts[dim]? else some (0, 0)

/-- The name stands in one of the descriptors. -/
def LayoutModel.Mentions (mdl : LayoutModel) (n : Str) : Prop :=
  .name n ∈ tokens mdl.dimensions ∨ .name n ∈ tokens mdl.global ∨ .name n ∈ tokens mdl.ghosts

namespace BoxLayout

/-- `model::Type` -/
inductive ValueType
  | short
  | int
  | integer
  | long
  | float
  | real
  | double
  | char
  | character
  | string
  | label
  | undefined
  deriving DecidableEq

/-- Two of the types are other names for C types. -/
def ValueType.canonical : ValueType → ValueType
  | .integer => .int
  | .real => .float
  | type => type

/-- A parameter with the bytes at its `value_`. -/
structure TypedParameter where
  type : ValueType
  value : List UInt8
  deriving DecidableEq

/-- The bytes of an `int` that `ToBuffer` copies. -/
def intOfBytes (bytes : List UInt8) : ℤ :=
  Data.toInt ((bytes.take 4).foldr (fun b n => b.toNat + 256 * n) 0 : ℕ)

/-- `GetValue<int>`; under a wrong type it returns a `t` that was never set. -/
def TypedParameter.getValue (t : ℤ) (p : TypedParameter) : ℤ :=
  if p.type.canonical = .int then intOfBytes p.value else t

/-- `ParameterMap<int>`, where the `t` of a name is whatever it happens to be. -/
def parameterMap (params : Str → Option TypedParameter) (t : Str → ℤ) : Str → Option ℤ := fun n =>
  (params n).map (TypedParameter.getValue (t n))

/-- `New`; `none` is the null pointer. -/
def new (default : Language) (params : Str → Option TypedParameter) (t : Str → ℤ)
    (mdl : LayoutModel) : Except Fault (Option Vectors) :=
  if '/' ∈ mdl.name then .ok none
  else if (dependentParameters mdl).all fun n => (params n).isSome then
    (interpretDimensions default (parameterMap params t) mdl).outcome.map fun r => some r.1
  else .ok none

end BoxLayout

/-! ### `New` among layouts that observe their parameters -/

namespace Registry

variable {default : Language} {w : Registry}

/-- The parameters of a registry are those of type `int`. -/
def typed (w : Registry) : Str → Option BoxLayout.TypedParameter := fun n =>
  (w.params n).map fun p => ⟨.int, p.value⟩

theorem parameterMap_typed (t : Str → ℤ) : BoxLayout.parameterMap w.typed t = w.sym := by
  funext n
  have hvalue : ∀ p : Parameter,
      BoxLayout.TypedParameter.getValue (t n) ⟨.int, p.value⟩ = p.getValue := by
    intro p
    have htake : p.value.take 4 = p.value := List.take_of_length_le p.sized.le
    simp [BoxLayout.TypedParameter.getValue, BoxLayout.ValueType.canonical, BoxLayout.intOfBytes,
      Parameter.getValue, htake]
  cases hp : w.params n <;> simp [BoxLayout.parameterMap, typed, sym, hp, hvalue]

theorem observe_known (ptr : ℕ) (names observed : List Str) (w : Registry) :
    (w.observe ptr names observed).2.2 = names.all fun n => (w.params n).isSome := by
  induction names generalizing observed w with
  | nil => rfl
  | cons n names ih =>
    cases hp : w.params n with
    | none => simp [observe, hp]
    | some p =>
      have hsame : ∀ m, ((w.setParam n (p.addObserver ptr)).params m).isSome = (w.params m).isSome := by
        intro m
        by_cases hm : m = n
        · subst hm
          simp [hp]
        · rw [params_setParam_of_ne hm]
      simp [observe, hp, ih, hsame]

/-- Apart from the pointers it registers, `New` does what it does on the parameters alone. -/
theorem new_typed (ptr : ℕ) (mdl : LayoutModel) (name : Str) (t : Str → ℤ) :
    (w.new default ptr mdl name).map
        (fun r => if r.2 then (r.1.layouts ptr).map BoxLayout.vectors else none) =
      BoxLayout.new default w.typed t mdl := by
  have hknown := observe_known ptr (dependentParameters mdl) [] w
  have hsym := (observe_spec ptr (dependentParameters mdl) [] w).sym
  have htyped : ∀ n, (w.typed n).isSome = (w.params n).isSome := fun n => by simp [typed]
  rw [Registry.new, BoxLayout.new, parameterMap_typed]
  simp only [htyped, ← hknown]
  split_ifs with hslash hall
  · rfl
  · rcases hobs : w.observe ptr (dependentParameters mdl) [] with ⟨w₁, observed, _ | _⟩
    · simp [hobs] at hall
    · rw [hobs] at hsym
      simp only [hsym]
      cases (interpretDimensions default w.sym mdl).outcome with
      | error f => rfl
      | ok out => simp [Except.map]
  · rcases hobs : w.observe ptr (dependentParameters mdl) [] with ⟨w₁, observed, _ | _⟩
    · rfl
    · simp [hobs] at hall

end Registry

namespace BoxLayout

/-! ### What an accepted layout promises -/

def Complete (sym : Str → Option ℤ) (s : Str) : Prop :=
  ∃ r, (phraseParse sym s).outcome = .ok r ∧ r.complete = true

/-- Both passes read the ghost descriptor to its end. -/
def CompleteGhosts (sym : Str → Option ℤ) (s : Str) : Prop :=
  ∃ r ghosts, (phraseParse sym (replaceColon s)).outcome = .ok r ∧ r.complete = true ∧
    fillGhosts r.values s 0 false [] = .ok (ghosts, false)

structure Accepted (params : Str → Option TypedParameter) (t : Str → ℤ) (mdl : LayoutModel)
    (v : Vectors) : Prop where
  dimensions : Complete (parameterMap params t) mdl.dimensions
  global : mdl.global = ['#'] ∨ Complete (parameterMap params t) mdl.global
  ghosts : mdl.ghosts = ['#'] ∨ CompleteGhosts (parameterMap params t) mdl.ghosts
  parameters : ∀ n, mdl.Mentions n → ∃ p, params n = some p ∧ p.type.canonical = .int ∧
    parameterMap params t n = some (intOfBytes p.value)
  globalLength : v.globalExtents.length = v.extents.length
  ghostsLength : v.ghosts.length = v.extents.length
  inBounds : ∀ dim, (v.getGlobalExtentAlong dim).isSome ∧ (v.getGhostAlong dim).isSome

/-- The descriptors are lists of one length, over parameters of type `int`. -/
structure WellFormed (params : Str → Option TypedParameter) (mdl : LayoutModel) : Prop where
  descriptors : ∃ es, Descriptor es mdl.dimensions ∧
    (mdl.global = ['#'] ∨ ∃ gs, Descriptor gs mdl.global ∧ gs.length = es.length) ∧
    (mdl.ghosts = ['#'] ∨ ∃ zs, GhostDescriptor zs mdl.ghosts ∧ zs.length = es.length)
  parameters : ∀ n p, mdl.Mentions n → params n = some p → p.type.canonical = .int

/-! ### Every name that is written is searched for -/

theorem mem_of_name_mem_tokens {W : Str → Set Str} (hW : Finds W) {s n : Str}
    (h : .name n ∈ tokens s) : n ∈ W s := by
  induction hn : s.length using Nat.strong_induction_on generalizing s with
  | _ k ih =>
    subst hn
    cases s with
    | nil => simp at h
    | cons c s =>
      have hrest : ∀ f : Char → Bool, .name n ∈ tokens (s.dropWhile f) → n ∈ W (s.dropWhile f) :=
        fun f hf => ih _ (Nat.lt_succ_of_le (length_dropWhile_le f s)) hf rfl
      have hhere : .name n ∈ tokens s → n ∈ W s := fun hs => ih s.length (Nat.lt_succ_self _) hs rfl
      rw [tokens_cons] at h
      split_ifs at h with hspace hstart hdigit
      · exact hW.skip c s (not_isWordStart_of_isspace hspace) (hhere h)
      · rcases List.mem_cons.mp h with heq | h
        · exact Token.name.inj heq ▸ hW.word c s hstart
        · exact hW.rest c s hstart (hrest isWord h)
      · have hmem : n ∈ W (s.dropWhile Char.isDigit) := hrest Char.isDigit (by simpa using h)
        exact hW.skip c s (not_isWordStart_of_isDigit hdigit)
          (hW.dropWhile (fun _ => not_isWordStart_of_isDigit) s hmem)
      · exact hW.skip c s (Bool.eq_false_iff.mpr hstart) (hhere (by simpa using h))

theorem mem_dependentParameters_of_mentions {mdl : LayoutModel} {n : Str} (h : mdl.Mentions n) :
    n ∈ dependentParameters mdl := by
  rw [mem_dependentParameters]
  exact h.imp (mem_of_name_mem_tokens finds_words)
    (.imp (mem_of_name_mem_tokens finds_words) (mem_of_name_mem_tokens finds_words))

/-! ### What both passes accept is a list of items -/

/-- Of a text that is a list once its colons are commas, the part up to the first separator. -/
theorem split_recolon {es : List Expr} {s : Str} (h : DerivesList es ((tokens s).map recolon)) :
    (∃ x, es = [x] ∧ Derives .expression x (tokens s)) ∨
      ∃ x es' p c r, es = x :: es' ∧ s = p ++ c :: r ∧ Separator c ∧
        Derives .expression x (tokens p) ∧ DerivesList es' ((tokens r).map recolon) := by
  have hsame : ∀ {x : Expr} {ts : List Token}, Derives .expression x (ts.map recolon) →
      (∀ c, Separator c → .sym c ∉ ts) ∧ ts.map recolon = ts := by
    intro x ts hx
    have hno : ∀ c, Separator c → .sym c ∉ ts := by
      rintro c (rfl | rfl) hc <;>
        exact not_mem_of_derives hx (.inl rfl) (List.mem_map.mpr ⟨_, hc, rfl⟩)
    exact ⟨hno, map_recolon fun hc => hno ':' (.inr rfl) hc⟩
  obtain ⟨x, rfl, hx⟩ | ⟨x, es', us, vs, rfl, heq, hx, hs⟩ := h.cases_head
  · exact .inl ⟨x, rfl, (hsame hx).2 ▸ hx⟩
  · refine .inr ?_
    obtain ⟨us, ws, htokens, rfl, hws⟩ := List.map_eq_append_iff.mp heq
    obtain ⟨tok, vs, rfl, htok, rfl⟩ := List.map_eq_cons_iff.mp hws
    obtain ⟨hno, hus⟩ := hsame hx
    have hsep : ∃ c, Separator c ∧ tok = .sym c := by
      cases tok with
      | number n => cases htok
      | name n => cases htok
      | sym c =>
        have hc : (if c = ':' then ',' else c) = ',' := Token.sym.inj htok
        split_ifs at hc with hcolon
        · exact ⟨c, .inr hcolon, rfl⟩
        · exact ⟨c, .inl hc, rfl⟩
    obtain ⟨c, hc, rfl⟩ := hsep
    obtain ⟨p, r, rfl, rfl, rfl⟩ := tokens_split (plain_of_separator hc) htokens (hno c hc)
    exact ⟨x, es', p, c, r, rfl, rfl, hc, hus ▸ hx, hs⟩

/-- A text that both passes read to its end is a ghost descriptor. -/
theorem exists_items {es : List Expr} {s : Str} {e : List ℤ} {i : ℕ} {acc ghosts : List (ℕ × ℕ)}
    (h : DerivesList es ((tokens s).map recolon))
    (hfill : fillGhosts e s i false acc = .ok (ghosts, false)) : ∃ zs, GhostDescriptor zs s := by
  induction hn : s.length using Nat.strong_induction_on generalizing s es i acc with
  | _ n ih =>
    subst hn
    obtain ⟨x, rfl, hx⟩ | ⟨x, es', p, c, r, rfl, rfl, hc, hx, hs⟩ := split_recolon h
    · exact ⟨[.one x], .single (.one hx)⟩
    rw [fillGhosts_skip (not_separator_of_derives hx) (List.cons_ne_nil c r)] at hfill
    rcases hc with rfl | rfl
    · cases hg : e[i]? with
      | none => simp [fillGhosts, hg] at hfill
      | some g =>
        rw [fillGhosts_comma hg] at hfill
        obtain ⟨zs, hzs⟩ := ih r.length (by simp; omega) hs hfill rfl
        refine ⟨.one x :: zs, ?_⟩
        rw [GhostDescriptor, tokens_append (by decide)]
        exact .cons (.one hx) hzs
    · cases hg : e[i]? with
      | none => simp [fillGhosts, hg] at hfill
      | some g =>
        rw [fillGhosts_colon hg] at hfill
        obtain ⟨y, rfl, hy⟩ | ⟨y, es'', q, c, r', rfl, rfl, hc, hy, hs'⟩ := split_recolon hs
        · refine ⟨[.pair x y], ?_⟩
          rw [GhostDescriptor, tokens_append (by decide)]
          exact .single (.pair hx hy)
        rw [fillGhosts_skip (not_separator_of_derives hy) (List.cons_ne_nil c r')] at hfill
        rcases hc with rfl | rfl
        · cases hg' : e[i + 1]? with
          | none => simp [fillGhosts, hg'] at hfill
          | some g' =>
            rw [fillGhosts_second hg'] at hfill
            obtain ⟨zs, hzs⟩ := ih r'.length (by simp; omega) hs' hfill rfl
            refine ⟨.pair x y :: zs, ?_⟩
            rw [GhostDescriptor, tokens_append (by decide), tokens_append (by decide)]
            simpa using DerivesItems.cons (.pair hx hy) hzs
        · -- the pass breaks off at a second colon
          simp [fillGhosts] at hfill

theorem evalAll_eq_map {sym : Str → Option ℤ} {es : List Expr} {xs : List ℤ}
    (h : evalAll sym es = .ok xs) : xs = es.map fun e => (e.eval sym).toOption.getD 0 := by
  induction es generalizing xs with
  | nil => exact (Except.ok.inj h).symm
  | cons e es ih =>
    obtain ⟨x, ys, hx, hys, rfl⟩ := evalAll_cons.mp h
    rw [ih hys, List.map_cons, hx]
    rfl

section Ghosts

variable {sym : Str → Option ℤ} {s : Str} {r : Parsed} {ghosts : List (ℕ × ℕ) × Bool}
  (hr : (phraseParse sym (replaceColon s)).outcome = .ok r)
  (hfill : fillGhosts r.values s 0 false [] = .ok ghosts)

include hr hfill

theorem completeGhosts_of_descriptor {zs : List GhostItem} (h : GhostDescriptor zs s) :
    r.complete = true ∧ ghosts.2 = false ∧ ghosts.1.length = zs.length := by
  have hdescriptor : Descriptor (zs.flatMap GhostItem.exprs) (replaceColon s) := by
    rw [Descriptor, tokens_replaceColon]
    exact h.derivesList
  obtain ⟨xs, hxs, rfl⟩ := values_of_descriptor hdescriptor hr
  have hpass := fillGhosts_descriptor (fun e => (e.eval sym).toOption.getD 0) h
  rw [← evalAll_eq_map hxs, hfill, Except.ok.injEq] at hpass
  rw [hpass]
  exact ⟨rfl, rfl, List.length_map _⟩

theorem descriptor_of_completeGhosts (hcomplete : r.complete = true) (hend : ghosts.2 = false) :
    ∃ zs, GhostDescriptor zs s := by
  obtain ⟨es, hes, -⟩ := descriptor_of_complete hr hcomplete
  rw [Descriptor, tokens_replaceColon] at hes
  obtain ⟨ghosts, broken⟩ := ghosts
  obtain rfl : broken = false := hend
  exact exists_items hes hfill

end Ghosts

/-! ### What `New` has computed -/

@[simp] theorem length_oriented {α : Type} (reversed : Bool) (l : List α) :
    (oriented reversed l).length = l.length := by
  cases reversed <;> simp [oriented]

/-- The vectors come from what was read of each descriptor. -/
structure Interpreted (sym : Str → Option ℤ) (reversed : Bool) (mdl : LayoutModel) (v : Vectors) :
    Prop where
  dimensions : ∃ r, (phraseParse sym mdl.dimensions).outcome = .ok r ∧
    v.extents = oriented reversed r.values
  global : mdl.global = ['#'] ∧ v.globalExtents = v.extents ∨ mdl.global ≠ ['#'] ∧
    ∃ r, (phraseParse sym mdl.global).outcome = .ok r ∧ v.globalExtents = oriented reversed r.values
  ghosts : mdl.ghosts = ['#'] ∧ v.ghosts = v.extents.map (fun _ => (0, 0)) ∨ mdl.ghosts ≠ ['#'] ∧
    ∃ r filled, (phraseParse sym (replaceColon mdl.ghosts)).outcome = .ok r ∧
      fillGhosts r.values mdl.ghosts 0 false [] = .ok filled ∧ v.ghosts = oriented reversed filled.1

section Interpreted

variable {default : Language} {sym : Str → Option ℤ} {mdl : LayoutModel} {v : Vectors}
  {errors : List Str}

theorem interpretExtents_eq_ok {reversed : Bool} {complaint : Complaint} {str : Str}
    {out : List ℤ × List Complaint}
    (h : (interpretExtents sym reversed complaint str).outcome = .ok out) :
    ∃ r, (phraseParse sym str).outcome = .ok r ∧ out.1 = oriented reversed r.values := by
  obtain ⟨r, hr, hout⟩ := Traced.outcome_bind_eq_ok.mp h
  exact ⟨r, hr, congrArg Prod.fst (Except.ok.inj hout).symm⟩

theorem interpreted_of_ok
    (h : (interpretDimensions default sym mdl).outcome = .ok (v, errors)) :
    Interpreted sym (reversed default mdl) mdl v := by
  obtain ⟨extents, he, h⟩ := Traced.outcome_bind_eq_ok.mp h
  obtain ⟨globals, hg, h⟩ := Traced.outcome_bind_eq_ok.mp h
  obtain ⟨ghosts, hz, h⟩ := Traced.outcome_bind_eq_ok.mp h
  obtain rfl : Vectors.mk extents.1 globals.1 ghosts.1 = v := congrArg Prod.fst (Except.ok.inj h)
  refine ⟨interpretExtents_eq_ok he, ?_, ?_⟩
  · rw [interpretGlobal] at hg
    split_ifs at hg with hsharp
    · obtain rfl := Except.ok.inj hg
      exact .inl ⟨hsharp, rfl⟩
    · exact .inr ⟨hsharp, interpretExtents_eq_ok hg⟩
  · rw [interpretGhosts] at hz
    split_ifs at hz with hsharp
    · obtain rfl := Except.ok.inj hz
      exact .inl ⟨hsharp, rfl⟩
    · obtain ⟨r, hr, hz⟩ := Traced.outcome_bind_eq_ok.mp hz
      obtain ⟨filled, hfill, hz⟩ := Traced.outcome_bind_eq_ok.mp hz
      exact .inr ⟨hsharp, r, filled, hr, hfill, congrArg Prod.fst (Except.ok.inj hz).symm⟩

/-- Where a descriptor has been evaluated, it was read to its end exactly if it is a list, and
there are as many values as expressions. -/
theorem complete_iff {s : Str} {r : Parsed} (hr : (phraseParse sym s).outcome = .ok r) :
    Complete sym s ↔ ∃ es, Descriptor es s ∧ r.values.length = es.length := by
  constructor
  · rintro ⟨r', hr', hcomplete⟩
    obtain rfl := Except.ok.inj (hr.symm.trans hr')
    obtain ⟨es, hes, hxs⟩ := descriptor_of_complete hr hcomplete
    exact ⟨es, hes, evalAll_length hxs⟩
  · rintro ⟨es, hes, -⟩
    obtain ⟨xs, -, rfl⟩ := values_of_descriptor hes hr
    exact ⟨_, hr, rfl⟩

end Interpreted

section New

variable {default : Language} {params : Str → Option TypedParameter} {t : Str → ℤ}
  {mdl : LayoutModel} {v : Vectors}

theorem new_eq_some (h : new default params t mdl = .ok (some v)) :
    (∀ n ∈ dependentParameters mdl, (params n).isSome) ∧
      Interpreted (parameterMap params t) (reversed default mdl) mdl v := by
  rw [new] at h
  split_ifs at h with hslash hknown
  · simp at h
  · refine ⟨List.all_eq_true.mp hknown, ?_⟩
    cases hout : (interpretDimensions default (parameterMap params t) mdl).outcome with
    | error f => simp [hout, Except.map] at h
    | ok out =>
      rw [hout] at h
      obtain rfl := Option.some.inj (Except.ok.inj h)
      exact interpreted_of_ok hout
  · simp at h

theorem wellFormed_of_accepted (ha : Accepted params t mdl v)
    (hi : Interpreted (parameterMap params t) (reversed default mdl) mdl v) :
    WellFormed params mdl := by
  obtain ⟨⟨r, hr, hextents⟩, hglobal, hghosts⟩ := hi
  have hlen : v.extents.length = r.values.length := by rw [hextents, length_oriented]
  obtain ⟨es, hes, hcount⟩ := (complete_iff hr).mp ha.dimensions
  refine ⟨⟨es, hes, ?_, ?_⟩, fun n p hn hp => ?_⟩
  · rcases hglobal with ⟨hsharp, -⟩ | ⟨hsharp, r', hr', hg⟩
    · exact .inl hsharp
    · obtain ⟨gs, hgs, hcount'⟩ := (complete_iff hr').mp (ha.global.resolve_left hsharp)
      refine .inr ⟨gs, hgs, ?_⟩
      have hl := ha.globalLength
      rw [hg, length_oriented] at hl
      omega
  · rcases hghosts with ⟨hsharp, -⟩ | ⟨hsharp, r', filled, hr', hfill, hz⟩
    · exact .inl hsharp
    · obtain ⟨r'', ghosts, hr'', hcomplete, hend⟩ := ha.ghosts.resolve_left hsharp
      obtain rfl := Except.ok.inj (hr'.symm.trans hr'')
      obtain rfl := Except.ok.inj (hfill.symm.trans hend)
      obtain ⟨zs, hzs⟩ := descriptor_of_completeGhosts hr' hfill hcomplete rfl
      refine .inr ⟨zs, hzs, ?_⟩
      have hcount' := (completeGhosts_of_descriptor hr' hfill hzs).2.2
      have hl := ha.ghostsLength
      rw [hz, length_oriented] at hl
      omega
  · obtain ⟨p', hp', hint, -⟩ := ha.parameters n hn
    exact Option.some.inj (hp.symm.trans hp') ▸ hint

theorem inBounds_of_length (hg : v.globalExtents.length = v.extents.length)
    (hz : v.ghosts.length = v.extents.length) (dim : ℕ) :
    (v.getGlobalExtentAlong dim).isSome ∧ (v.getGhostAlong dim).isSome := by
  simp only [Vectors.getGlobalExtentAlong, Vectors.getGhostAlong]
  split_ifs with hdim
  · simp [hg, hz, hdim]
  · simp

theorem accepted_of_wellFormed (hw : WellFormed params mdl)
    (hknown : ∀ n ∈ dependentParameters mdl, (params n).isSome)
    (hi : Interpreted (parameterMap params t) (reversed default mdl) mdl v) :
    Accepted params t mdl v := by
  obtain ⟨⟨r, hr, hextents⟩, hglobal, hghosts⟩ := hi
  have hlen : v.extents.length = r.values.length := by rw [hextents, length_oriented]
  obtain ⟨⟨es, hes, hg', hz'⟩, hparams⟩ := hw
  obtain ⟨xs, hxs, rfl⟩ := values_of_descriptor hes hr
  have hcount : v.extents.length = es.length := hlen.trans (evalAll_length hxs)
  have hglobalLength : v.globalExtents.length = v.extents.length := by
    rcases hglobal with ⟨-, hg⟩ | ⟨hsharp, r', hr', hg⟩
    · rw [hg]
    · obtain ⟨gs, hgs, hgl⟩ := hg'.resolve_left hsharp
      obtain ⟨ys, hys, rfl⟩ := values_of_descriptor hgs hr'
      rw [hg, length_oriented, evalAll_length hys, hgl, hcount]
  have hghostsLength : v.ghosts.length = v.extents.length := by
    rcases hghosts with ⟨-, hz⟩ | ⟨hsharp, r', filled, hr', hfill, hz⟩
    · rw [hz, List.length_map]
    · obtain ⟨zs, hzs, hzl⟩ := hz'.resolve_left hsharp
      rw [hz, length_oriented, (completeGhosts_of_descriptor hr' hfill hzs).2.2, hzl, hcount]
  refine ⟨⟨_, hr, rfl⟩, ?_, ?_, fun n hn => ?_, hglobalLength, hghostsLength,
    inBounds_of_length hglobalLength hghostsLength⟩
  · rcases hglobal with ⟨hsharp, -⟩ | ⟨hsharp, r', hr', -⟩
    · exact .inl hsharp
    · obtain ⟨gs, hgs, -⟩ := hg'.resolve_left hsharp
      obtain ⟨ys, -, rfl⟩ := values_of_descriptor hgs hr'
      exact .inr ⟨_, hr', rfl⟩
  · rcases hghosts with ⟨hsharp, -⟩ | ⟨hsharp, r', filled, hr', hfill, -⟩
    · exact .inl hsharp
    · obtain ⟨zs, hzs, -⟩ := hz'.resolve_left hsharp
      obtain ⟨hcomplete, hend, -⟩ := completeGhosts_of_descriptor hr' hfill hzs
      exact .inr ⟨r', filled.1, hr', hcomplete, by rw [hfill, ← hend]⟩
  · obtain ⟨p, hp⟩ := Option.isSome_iff_exists.mp
      (hknown n (mem_dependentParameters_of_mentions hn))
    have hint := hparams n p hn hp
    exact ⟨p, hp, hint, by simp [parameterMap, hp, TypedParameter.getValue, hint]⟩

end New

/-- A layout that `New` returns is what it should be exactly if its descriptors are lists of
one length, and no parameter in them has a type other than `int`. -/
theorem accepted_iff_wellFormed (default : Language) (params : Str → Option TypedParameter)
    (t : Str → ℤ) (mdl : LayoutModel) (v : Vectors)
    (h : new default params t mdl = .ok (some v)) :
    Accepted params t mdl v ↔ WellFormed params mdl := by
  obtain ⟨hknown, hi⟩ := new_eq_some h
  exact ⟨fun ha => wellFormed_of_accepted ha hi, fun hw => accepted_of_wellFormed hw hknown hi⟩

/-- Two dimensions with a global extent for one of them. -/
def halfGlobal : LayoutModel := ⟨"half".toList, "4,4".toList, "8".toList, "#".toList, .c⟩

/-- The layout is returned, and its second global extent is read past the end. -/
theorem accepted_halfGlobal :
    ¬ ∀ (default : Language) (params : Str → Option TypedParameter) (t : Str → ℤ)
      (mdl : LayoutModel) (v : Vectors),
      new default params t mdl = .ok (some v) → Accepted params t mdl v := by
  intro h
  have ha := h .c (fun _ => none) (fun _ => 0) halfGlobal ⟨[4, 4], [8], [(0, 0), (0, 0)]⟩
    (by decide +kernel)
  exact absurd (ha.inBounds 1).1 (by decide)

/-- With 4 for `n` and ghosts in both dimensions. -/
theorem accepted_iff_wellFormed_halo :
    Accepted (fun _ => some ⟨.integer, [4, 0, 0, 0]⟩) (fun _ => 0) haloModel
        ⟨[16, 8], [16, 8], [(2, 2), (1, 5)]⟩ ↔
      WellFormed (fun _ => some ⟨.integer, [4, 0, 0, 0]⟩) haloModel :=
  accepted_iff_wellFormed .c (fun _ => some ⟨.integer, [4, 0, 0, 0]⟩) (fun _ => 0) haloModel _
    (by decide +kernel)

end BoxLayout
end Damaris
