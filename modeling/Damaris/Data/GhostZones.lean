import Mathlib.Tactic
import Damaris.Data.BoxLayout
import Damaris.Util.Descriptors

/-!
# Ghost zones

A ghost descriptor is read twice: `Calc` evaluates the text with ',' in the place of ':',
and a loop over the characters of the text itself pairs the values. Both passes are related
to one list of items, each a width for both sides or two widths with a colon between.
-/
namespace Damaris.BoxLayout

open Calc

/-! ### Commas and colons -/

def Separator (c : Char) : Prop := c = ',' ∨ c = ':'

instance (c : Char) : Decidable (Separator c) := inferInstanceAs (Decidable (_ ∨ _))

theorem plain_of_separator {c : Char} (hc : Separator c) : Plain c := by
  rcases hc with rfl | rfl <;> decide

theorem isWord_of_plain {c : Char} (hc : Plain c) : isWord c = false := by
  have hstart := hc.2.1
  simp only [isWordStart, Bool.or_eq_false_iff] at hstart
  simp [isWord, Char.isAlphanum, hstart, hc.2.2]

/-- A character that is a token of its own parts the tokens before it from those after. -/
theorem tokens_append {c : Char} (hc : Plain c) (s t : Str) :
    tokens (s ++ c :: t) = tokens s ++ .sym c :: tokens t := by
  induction hn : s.length using Nat.strong_induction_on generalizing s with
  | _ n ih =>
    subst hn
    cases s with
    | nil => simpa using tokens_plain hc t
    | cons d s =>
      have hrest : ∀ {f : Char → Bool}, f c = false →
          tokens ((s ++ c :: t).dropWhile f) = tokens (s.dropWhile f) ++ .sym c :: tokens t := by
        intro f hf
        rw [dropWhile_append_sep hf]
        exact ih _ (Nat.lt_succ_of_le (length_dropWhile_le f s)) _ rfl
      rw [List.cons_append, tokens_cons, tokens_cons, hrest (isWord_of_plain hc), hrest hc.2.2,
        ih s.length (Nat.lt_succ_self _) s rfl, takeWhile_append_sep (isWord_of_plain hc),
        takeWhile_append_sep hc.2.2]
      split_ifs <;> rfl

theorem mem_tokens {c : Char} (hc : Plain c) {s : Str} : .sym c ∈ tokens s ↔ c ∈ s := by
  constructor
  · intro h
    induction hn : s.length using Nat.strong_induction_on generalizing s with
    | _ n ih =>
      subst hn
      cases s with
      | nil => simp at h
      | cons d s =>
        have hrest : ∀ f : Char → Bool, .sym c ∈ tokens (s.dropWhile f) → c ∈ s := fun f hf =>
          (List.dropWhile_sublist f).subset
            (ih _ (Nat.lt_succ_of_le (length_dropWhile_le f s)) hf rfl)
        rw [tokens_cons] at h
        split_ifs at h with hspace hstart hdigit
        · exact List.mem_cons_of_mem d (ih s.length (Nat.lt_succ_self _) h rfl)
        · exact List.mem_cons_of_mem d (hrest isWord (by simpa using h))
        · exact List.mem_cons_of_mem d (hrest Char.isDigit (by simpa using h))
        · rcases List.mem_cons.mp h with heq | h
          · exact Token.sym.inj heq ▸ List.mem_cons_self
          · exact List.mem_cons_of_mem d (ih s.length (Nat.lt_succ_self _) h rfl)
  · intro h
    obtain ⟨p, t, rfl⟩ := List.append_of_mem h
    rw [tokens_append hc]
    simp

theorem append_cons_inj {α : Type} {a : α} {xs ys zs ws : List α} (hx : a ∉ xs) (hz : a ∉ zs)
    (h : xs ++ a :: ys = zs ++ a :: ws) : xs = zs ∧ ys = ws := by
  induction xs generalizing zs with
  | nil =>
    cases zs with
    | nil => simpa using h
    | cons z zs => exact absurd (List.cons.inj h).1 fun heq => hz (heq ▸ List.mem_cons_self)
  | cons x xs ih =>
    cases zs with
    | nil => exact absurd (List.cons.inj h).1 fun heq => hx (heq ▸ List.mem_cons_self)
    | cons z zs =>
      simp only [List.mem_cons, not_or] at hx hz
      simp only [List.cons_append, List.cons.injEq] at h
      obtain ⟨rfl, rfl⟩ := ih hx.2 hz.2 h.2
      simp [h.1]

/-- Where the tokens are parted by a character for the first time, the text is. -/
theorem tokens_split {c : Char} (hc : Plain c) {s : Str} {ts us : List Token}
    (h : tokens s = ts ++ .sym c :: us) (hts : .sym c ∉ ts) :
    ∃ p t, s = p ++ c :: t ∧ tokens p = ts ∧ tokens t = us := by
  have hmem : c ∈ s := (mem_tokens hc).mp (by simp [h])
  obtain ⟨p, t, rfl, hp⟩ := List.eq_append_cons_of_mem hmem
  rw [tokens_append hc] at h
  obtain ⟨hpt, htt⟩ := append_cons_inj (fun hin => hp ((mem_tokens hc).mp hin)) hts h
  exact ⟨p, t, rfl, hpt, htt⟩

/-- `replaceColon` on tokens. -/
def recolon : Token → Token
  | .sym c => .sym (if c = ':' then ',' else c)
  | t => t

theorem map_recolon {ts : List Token} (h : .sym ':' ∉ ts) : ts.map recolon = ts := by
  refine (List.map_congr_left fun t ht => ?_).trans (List.map_id ts)
  cases t with
  | number n => rfl
  | name n => rfl
  | sym c => exact congrArg Token.sym (if_neg fun hc : c = ':' => h (hc ▸ ht))

theorem tokens_replaceColon (s : Str) : tokens (replaceColon s) = (tokens s).map recolon := by
  induction hn : s.length using Nat.strong_induction_on generalizing s with
  | _ n ih =>
    subst hn
    by_cases hcolon : ':' ∈ s
    · obtain ⟨p, t, rfl, hp⟩ := List.eq_append_cons_of_mem hcolon
      have hsplit : replaceColon (p ++ ':' :: t) = replaceColon p ++ ',' :: replaceColon t := by
        simp [replaceColon]
      have hcomma : Plain ',' ∧ Plain ':' := by decide
      have hp : p.length < (p ++ ':' :: t).length := by simp
      have ht : t.length < (p ++ ':' :: t).length := by simp; omega
      rw [hsplit, tokens_append hcomma.1, tokens_append hcomma.2, List.map_append, List.map_cons,
        ih p.length hp p rfl, ih t.length ht t rfl]
      rfl
    · have hsame : replaceColon s = s :=
        (List.map_congr_left fun c hc => if_neg fun h : c = ':' => hcolon (h ▸ hc)).trans (List.map_id s)
      rw [hsame, map_recolon fun h => hcolon ((mem_tokens (by decide)).mp h)]

theorem mem_of_derives {L : Level} {e : Expr} {ts : List Token} (h : Derives L e ts) {c : Char}
    (hc : .sym c ∈ ts) : c ∈ ['(', ')', '+', '-', '*', '/'] := by
  induction h with
  | number hn => simp at hc
  | name n => simp at hc
  | parens h ih =>
    simp only [List.mem_cons, List.mem_append, Token.sym.injEq, List.not_mem_nil, or_false] at hc
    rcases hc with rfl | hc | rfl
    · decide
    · exact ih hc
    · decide
  | neg h ih =>
    rcases List.mem_cons.mp hc with hc | hc
    · cases hc
      decide
    · exact ih hc
  | plus h ih =>
    rcases List.mem_cons.mp hc with hc | hc
    · cases hc
      decide
    · exact ih hc
  | lift L h ih => exact ih hc
  | binary op ha hb iha ihb =>
    simp only [List.mem_append, List.mem_cons, Token.sym.injEq] at hc
    rcases hc with hc | rfl | hc
    · exact iha hc
    · cases op <;> decide
    · exact ihb hc

/-- No separator is inside an expression. -/
theorem not_mem_of_derives {L : Level} {e : Expr} {ts : List Token} (h : Derives L e ts) {c : Char}
    (hc : Separator c) : .sym c ∉ ts := by
  intro hmem
  have := mem_of_derives h hmem
  rcases hc with rfl | rfl <;> revert this <;> decide

theorem map_recolon_of_derives {L : Level} {e : Expr} {ts : List Token} (h : Derives L e ts) :
    ts.map recolon = ts := map_recolon (not_mem_of_derives h (.inr rfl))

/-! ### Items -/

/-- One width for both sides, or one for each. -/
inductive GhostItem
  | one (g : Expr)
  | pair (a b : Expr)

def GhostItem.exprs : GhostItem → List Expr
  | .one g => [g]
  | .pair a b => [a, b]

/-- The pair of `ghosts_` that the values make. -/
def GhostItem.zones (value : Expr → ℤ) : GhostItem → ℕ × ℕ
  | .one g => (Data.toSize (value g), Data.toSize (value g))
  | .pair a b => (Data.toSize (value a), Data.toSize (value b))

inductive DerivesItem : GhostItem → List Token → Prop
  | one {g : Expr} {ts : List Token} (h : Derives .expression g ts) : DerivesItem (.one g) ts
  | pair {a b : Expr} {ts us : List Token} (ha : Derives .expression a ts)
      (hb : Derives .expression b us) : DerivesItem (.pair a b) (ts ++ .sym ':' :: us)

inductive DerivesItems : List GhostItem → List Token → Prop
  | single {g : GhostItem} {ts : List Token} (h : DerivesItem g ts) : DerivesItems [g] ts
  | cons {g : GhostItem} {gs : List GhostItem} {ts us : List Token} (h : DerivesItem g ts)
      (hs : DerivesItems gs us) : DerivesItems (g :: gs) (ts ++ .sym ',' :: us)

/-- The text is a ghost descriptor of these items. -/
def GhostDescriptor (gs : List GhostItem) (s : Str) : Prop := DerivesItems gs (tokens s)

/-- The first pass sees the items' expressions, one after the other. -/
theorem DerivesItems.derivesList {gs : List GhostItem} {ts : List Token} (h : DerivesItems gs ts) :
    DerivesList (gs.flatMap GhostItem.exprs) (ts.map recolon) := by
  have hitem : ∀ {g : GhostItem} {ts : List Token}, DerivesItem g ts →
      DerivesList g.exprs (ts.map recolon) := by
    rintro g ts (h | ⟨ha, hb⟩)
    · rw [map_recolon_of_derives h]
      exact .single h
    · rw [List.map_append, List.map_cons, map_recolon_of_derives ha, map_recolon_of_derives hb]
      exact .cons ha (.single hb)
  induction h with
  | single h => simpa using hitem h
  | @cons g gs ts us h hs ih =>
    rw [List.map_append, List.map_cons, List.flatMap_cons]
    cases h with
    | one h =>
      rw [map_recolon_of_derives h]
      exact .cons h ih
    | pair ha hb =>
      rw [List.map_append, List.map_cons, map_recolon_of_derives ha, map_recolon_of_derives hb,
        List.append_assoc, List.cons_append]
      exact .cons ha (.cons hb ih)

theorem derives_ne_nil {L : Level} {e : Expr} {ts : List Token} (h : Derives L e ts) : ts ≠ [] := by
  induction h with
  | lift L h ih => exact ih
  | _ => simp

/-- A ghost descriptor ends with an expression. -/
theorem DerivesItems.ends {gs : List GhostItem} {ts : List Token} (h : DerivesItems gs ts) :
    ∃ e us vs, Derives .expression e us ∧ ts = vs ++ us := by
  have hitem : ∀ {g : GhostItem} {ts : List Token}, DerivesItem g ts →
      ∃ e us vs, Derives .expression e us ∧ ts = vs ++ us := by
    rintro g ts (h | @⟨a, b, us, vs, ha, hb⟩)
    · exact ⟨_, ts, [], h, rfl⟩
    · exact ⟨b, vs, us ++ [.sym ':'], hb, by simp⟩
  induction h with
  | single h => exact hitem h
  | @cons g gs ts us h hs ih =>
    obtain ⟨e, ws, vs, he, rfl⟩ := ih
    exact ⟨e, ws, ts ++ .sym ',' :: vs, he, by simp⟩

/-- The last character of such a text is no separator. -/
theorem GhostDescriptor.getLast {gs : List GhostItem} {s : Str} (h : GhostDescriptor gs s) :
    ∃ p c, s = p ++ [c] ∧ ¬ Separator c := by
  obtain ⟨e, us, vs, he, hs⟩ := h.ends
  have hne : us ≠ [] := derives_ne_nil he
  rcases List.eq_nil_or_concat' s with rfl | ⟨p, c, rfl⟩
  · simp_all
  · refine ⟨p, c, rfl, fun hc => not_mem_of_derives he hc ?_⟩
    rw [tokens_append (plain_of_separator hc)] at hs
    have hlast := congrArg List.getLast? hs
    rw [List.getLast?_append_of_ne_nil _ hne] at hlast
    exact List.mem_of_getLast? (hlast.symm.trans (by simp))

/-! ### The loop over the characters -/

section Fill

variable {e : List ℤ} {i : ℕ} {f : Bool} {acc : List (ℕ × ℕ)}

attribute [local simp] fillGhosts

theorem fillGhosts_skip {p t : Str} (hp : ∀ c ∈ p, ¬ Separator c) (ht : t ≠ []) :
    fillGhosts e (p ++ t) i f acc = fillGhosts e t i f acc := by
  induction p with
  | nil => rfl
  | cons c p ih =>
    have hc : c ≠ ':' ∧ c ≠ ',' := by
      have := hp c List.mem_cons_self
      simp only [Separator, not_or] at this
      exact this.symm
    rw [List.cons_append, ← ih fun d hd => hp d (List.mem_cons_of_mem c hd)]
    simp [fillGhosts, hc.1, hc.2, ht]

/-- The end of the text closes the last item as a comma would. -/
theorem fillGhosts_last {p : Str} {c : Char} (hc : ¬ Separator c) :
    fillGhosts e (p ++ [c]) i f acc = fillGhosts e (p ++ [c, ',']) i f acc := by
  induction p generalizing i f acc with
  | nil =>
    simp only [Separator, not_or] at hc
    simp [fillGhosts, hc.1, hc.2]
  | cons d p ih =>
    have hempty : (p ++ [c]).isEmpty = (p ++ [c, ',']).isEmpty := by cases p <;> rfl
    simp only [List.cons_append, fillGhosts, hempty, ih]

theorem fillGhosts_comma {t : Str} {g : ℤ} (hg : e[i]? = some g) :
    fillGhosts e (',' :: t) i false acc =
      fillGhosts e t (i + 1) false (acc ++ [(Data.toSize g, Data.toSize g)]) := by
  simp [fillGhosts, hg]

theorem fillGhosts_colon {t : Str} {g : ℤ} (hg : e[i]? = some g) :
    fillGhosts e (':' :: t) i false acc =
      fillGhosts e t (i + 1) true (acc ++ [(Data.toSize g, 0)]) := by
  simp [fillGhosts, hg]

theorem fillGhosts_second {t : Str} {g : ℤ} (hg : e[i]? = some g) (x : ℕ × ℕ) :
    fillGhosts e (',' :: t) i true (acc ++ [x]) =
      fillGhosts e t (i + 1) false (acc ++ [(x.1, Data.toSize g)]) := by
  simp [fillGhosts, hg]

theorem drop_eq_cons {x : ℤ} {l : List ℤ} (h : e.drop i = x :: l) :
    e[i]? = some x ∧ e.drop (i + 1) = l := by
  constructor
  · rw [← List.head?_drop, h, List.head?_cons]
  · rw [← List.tail_drop, h, List.tail_cons]

theorem not_separator_of_derives {L : Level} {x : Expr} {p : Str} (h : Derives L x (tokens p)) :
    ∀ c ∈ p, ¬ Separator c := fun _ hmem hc =>
  not_mem_of_derives h hc ((mem_tokens (plain_of_separator hc)).mpr hmem)

/-- The loop takes the values of one item and makes its pair. -/
theorem fillGhosts_item {value : Expr → ℤ} {g : GhostItem} {w t : Str} {l : List ℤ}
    (h : DerivesItem g (tokens w)) (he : e.drop i = g.exprs.map value ++ l) :
    fillGhosts e (w ++ ',' :: t) i false acc =
      fillGhosts e t (i + g.exprs.length) false (acc ++ [g.zones value]) := by
  generalize hw : tokens w = ts at h
  cases h with
  | one h =>
    rw [fillGhosts_skip (not_separator_of_derives (hw ▸ h)) (List.cons_ne_nil _ _)]
    exact fillGhosts_comma (drop_eq_cons he).1
  | @pair a b ts us ha hb =>
    obtain ⟨p, q, rfl, rfl, rfl⟩ := tokens_split (by decide) hw (not_mem_of_derives ha (.inr rfl))
    obtain ⟨hga, hrest⟩ := drop_eq_cons he
    obtain ⟨hgb, -⟩ := drop_eq_cons hrest
    rw [List.append_assoc, List.cons_append,
      fillGhosts_skip (not_separator_of_derives ha) (List.cons_ne_nil _ _), fillGhosts_colon hga,
      fillGhosts_skip (not_separator_of_derives hb) (List.cons_ne_nil _ _), fillGhosts_second hgb]
    rfl

theorem DerivesItem.comma_not_mem {g : GhostItem} {ts : List Token} (h : DerivesItem g ts) :
    .sym ',' ∉ ts := by
  cases h with
  | one h => exact not_mem_of_derives h (.inl rfl)
  | pair ha hb => simp [not_mem_of_derives ha (.inl rfl), not_mem_of_derives hb (.inl rfl)]

theorem fillGhosts_items {value : Expr → ℤ} {gs : List GhostItem} {s : Str}
    (h : DerivesItems gs (tokens s)) (he : e.drop i = (gs.flatMap GhostItem.exprs).map value) :
    fillGhosts e (s ++ [',']) i false acc =
      .ok (acc ++ gs.map (GhostItem.zones value), false) := by
  generalize hs : tokens s = ts at h
  induction h generalizing s i acc with
  | @single g ts h =>
    rw [List.flatMap_singleton, ← List.append_nil (g.exprs.map value)] at he
    rw [fillGhosts_item (hs ▸ h) he]
    rfl
  | @cons g gs ts us h _ ih =>
    obtain ⟨p, t, rfl, rfl, rfl⟩ := tokens_split (by decide) hs h.comma_not_mem
    rw [List.flatMap_cons, List.map_append] at he
    have hnext : e.drop (i + g.exprs.length) = (gs.flatMap GhostItem.exprs).map value := by
      rw [← List.drop_drop, he]
      exact List.drop_left' (List.length_map _)
    rw [List.append_assoc, List.cons_append, fillGhosts_item h he, ih hnext rfl, List.append_assoc]
    rfl

/-- The loop makes the items' pairs of the items' values. -/
theorem fillGhosts_descriptor (value : Expr → ℤ) {gs : List GhostItem} {s : Str}
    (h : GhostDescriptor gs s) :
    fillGhosts ((gs.flatMap GhostItem.exprs).map value) s 0 false [] =
      .ok (gs.map (GhostItem.zones value), false) := by
  obtain ⟨p, c, rfl, hc⟩ := h.getLast
  rw [fillGhosts_last hc, List.append_cons]
  exact fillGhosts_items h rfl

end Fill

/-! ### Ghost descriptors are interpreted right -/

theorem toSize_of_nonneg {x : ℤ} (h : 0 ≤ x) (hlt : x < 2 ^ 64) : Data.toSize x = x.toNat := by
  rw [Data.toSize, Int.emod_eq_of_lt h hlt]

section Interpret

variable {sym : Str → Option ℤ} {gs : List GhostItem} {str : Str}

/-- Both passes over a ghost descriptor whose values are defined. -/
theorem interpretGhosts_descriptor (h : GhostDescriptor gs str)
    (hdefined : ∀ e ∈ gs.flatMap GhostItem.exprs, e.Defined sym) (reversed : Bool)
    (extents : List ℤ) :
    (interpretGhosts sym reversed str extents).outcome =
      .ok (oriented reversed (gs.map (GhostItem.zones fun e => e.value sym)),
        complainUnless (gs.length = extents.length) .ghostsSize) := by
  have hsharp : str ≠ ['#'] := by
    rintro rfl
    obtain ⟨e, us, vs, he, hs⟩ := h.ends
    have hlast := congrArg List.getLast? hs
    rw [List.getLast?_append_of_ne_nil _ (derives_ne_nil he)] at hlast
    have := mem_of_derives he (List.mem_of_getLast? hlast.symm)
    revert this
    decide
  have hparse : (phraseParse sym (replaceColon str)).outcome =
      .ok ⟨true, (gs.flatMap GhostItem.exprs).map fun e => e.value sym, []⟩ := by
    refine (parses_iff_descriptor sym _).2 _ ?_ hdefined
    rw [Descriptor, tokens_replaceColon]
    exact h.derivesList
  rw [interpretGhosts, if_neg hsharp, Traced.outcome_bind_ok hparse]
  have hfill := fillGhosts_descriptor (fun e => e.value sym) h
  rw [Traced.outcome_bind_ok hfill]
  simp [Parsed.complete, complainUnless]

end Interpret

/-- The widths on the two sides, as the item says. -/
def GhostItem.widths (sym : Str → Option ℤ) : GhostItem → ℕ × ℕ
  | .one g => ((g.value sym).toNat, (g.value sym).toNat)
  | .pair a b => ((a.value sym).toNat, (b.value sym).toNat)

theorem GhostItem.zones_eq_widths {sym : Str → Option ℤ} {g : GhostItem}
    (h : ∀ e ∈ g.exprs, 0 ≤ e.value sym ∧ e.value sym < 2 ^ 31) :
    g.zones (fun e => e.value sym) = g.widths sym := by
  have hsize : ∀ e ∈ g.exprs, Data.toSize (e.value sym) = (e.value sym).toNat := fun e he =>
    toSize_of_nonneg (h e he).1 ((h e he).2.trans (by norm_num))
  cases g with
  | one g => simp [zones, widths, hsize g (by simp [exprs])]
  | pair a b => simp [zones, widths, hsize a (by simp [exprs]), hsize b (by simp [exprs])]

theorem outcome_interpretDimensions {default : Language} {sym : Str → Option ℤ} {mdl : LayoutModel}
    {extents globals : List ℤ × List Complaint} {ghosts : List (ℕ × ℕ) × List Complaint}
    (he : (interpretExtents sym (reversed default mdl) .dimensions mdl.dimensions).outcome =
      .ok extents)
    (hg : (interpretGlobal sym (reversed default mdl) mdl.global extents.1).outcome = .ok globals)
    (hz : (interpretGhosts sym (reversed default mdl) mdl.ghosts extents.1).outcome = .ok ghosts) :
    ∃ errors, (interpretDimensions default sym mdl).outcome =
      .ok (⟨extents.1, globals.1, ghosts.1⟩, errors) := by
  rw [interpretDimensions, Traced.outcome_bind_ok he, Traced.outcome_bind_ok hg,
    Traced.outcome_bind_ok hz]
  exact ⟨_, rfl⟩

/-- A descriptor of items whose values are defined and not negative gives every dimension the
widths of its item, and the dimensions are reversed as those of the extents are. -/
theorem ghosts_of_descriptor (default : Language) (sym : Str → Option ℤ) (mdl : LayoutModel)
    (gs : List GhostItem) (h : GhostDescriptor gs mdl.ghosts)
    (hdefined : ∀ e ∈ gs.flatMap GhostItem.exprs, e.Defined sym)
    (hvalues : ∀ e ∈ gs.flatMap GhostItem.exprs, 0 ≤ e.value sym ∧ e.value sym < 2 ^ 31)
    (r : Parsed) (hr : (phraseParse sym mdl.dimensions).outcome = .ok r)
    (globals : List ℤ × List Complaint)
    (hg : (interpretGlobal sym (reversed default mdl) mdl.global
      (oriented (reversed default mdl) r.values)).outcome = .ok globals) :
    ∃ errors, (interpretDimensions default sym mdl).outcome =
      .ok (⟨oriented (reversed default mdl) r.values, globals.1,
        oriented (reversed default mdl) (gs.map fun g => g.widths sym)⟩, errors) := by
  have hextents : (interpretExtents sym (reversed default mdl) .dimensions mdl.dimensions).outcome =
      .ok (oriented (reversed default mdl) r.values, complainUnless r.complete .dimensions) :=
    Traced.outcome_bind_ok hr
  have hwidths : gs.map (GhostItem.zones fun e => e.value sym) = gs.map fun g => g.widths sym :=
    List.map_congr_left fun g hg => GhostItem.zones_eq_widths fun e he =>
      hvalues e (List.mem_flatMap.mpr ⟨g, hg, he⟩)
  have hghosts := interpretGhosts_descriptor h hdefined (reversed default mdl)
    (oriented (reversed default mdl) r.values)
  rw [hwidths] at hghosts
  exact outcome_interpretDimensions hextents hg hghosts

/-- Two dimensions of Fortran, the second with as many ghosts on both sides. -/
def haloModel : LayoutModel :=
  ⟨"halo".toList, "8,16".toList, "#".toList, "1 : n+1, 2".toList, .fortran⟩

theorem ghosts_of_descriptor_halo :
    ∃ errors, (interpretDimensions .c (fun _ => some 3) haloModel).outcome =
      .ok (⟨[16, 8], [16, 8], [(2, 2), (1, 4)]⟩, errors) := by
  have hone : Derives .expression (.number 1) [.number 1] :=
    .lift .expression (.lift .term (.number (by decide)))
  have hn : Derives .expression (.binary .add (.name ['n']) (.number 1)) [.name ['n'], .sym '+', .number 1] :=
    .binary .add (.lift .expression (.lift .term (.name ['n']))) (.lift .term (.number (by decide)))
  have htwo : Derives .expression (.number 2) [.number 2] :=
    .lift .expression (.lift .term (.number (by decide)))
  have hdescriptor : GhostDescriptor
      [.pair (.number 1) (.binary .add (.name ['n']) (.number 1)), .one (.number 2)]
      haloModel.ghosts := .cons (.pair hone hn) (.single (.one htwo))
  exact ghosts_of_descriptor .c (fun _ => some 3) haloModel _ hdescriptor (by decide) (by decide)
    ⟨true, [8, 16], []⟩ (by decide +kernel) ([16, 8], []) (by decide +kernel)

/-! ### How many values the loop takes -/

/-- One for every separator up to a second colon in one item, and one for the item that ends with
the text; `f` says that the item has had its colon. -/
def reads : Bool → Str → ℕ
  | _, [] => 0
  | f, c :: str =>
    if c = ':' then if f then 0 else reads true str + 1
    else if c = ',' ∨ str.isEmpty then reads false str + 1
    else reads f str

theorem fillGhosts_inBounds_iff {e : List ℤ} {s : Str} {i : ℕ} {f : Bool} {acc : List (ℕ × ℕ)}
    (hi : i ≤ e.length) (hacc : f = true → acc ≠ []) :
    fillGhosts e s i f acc ≠ .error .outOfRange ↔ i + reads f s ≤ e.length := by
  induction s generalizing i f acc with
  | nil => simpa [fillGhosts, reads] using hi
  | cons c s ih =>
    by_cases hcolon : c = ':'
    · subst hcolon
      cases f with
      | true => simpa [fillGhosts, reads] using hi
      | false =>
        rcases Nat.lt_or_ge i e.length with hlt | hge
        · rw [fillGhosts_colon (List.getElem?_eq_getElem hlt), ih hlt (by simp)]
          simp only [reads, if_true, Bool.false_eq_true, if_false]
          omega
        · simp [fillGhosts, reads, List.getElem?_eq_none hge]
          omega
    · by_cases hend : c = ',' ∨ s.isEmpty
      · simp only [fillGhosts, reads, if_neg hcolon, if_pos hend]
        rcases Nat.lt_or_ge i e.length with hlt | hge
        · have hnext : i + (reads false s + 1) = i + 1 + reads false s := by omega
          rw [List.getElem?_eq_getElem hlt, hnext]
          cases f with
          | false => exact ih hlt fun h => absurd h Bool.false_ne_true
          | true =>
            rw [List.getLast?_eq_getLast_of_ne_nil (hacc rfl)]
            exact ih hlt fun h => absurd h Bool.false_ne_true
        · rw [List.getElem?_eq_none hge]
          exact iff_of_false (fun h => h rfl) (by omega)
      · simp only [fillGhosts, reads, if_neg hcolon, if_neg hend]
        exact ih hi hacc

/-- The second pass stays inside the values of the first exactly if the text begins with as many
expressions as the second pass counts. -/
theorem inBounds_iff_begins (sym : Str → Option ℤ) (reversed : Bool) (str : Str) (extents : List ℤ)
    (hsharp : str ≠ ['#']) (r : Parsed)
    (hr : (phraseParse sym (replaceColon str)).outcome = .ok r) :
    (interpretGhosts sym reversed str extents).outcome ≠ .error .outOfRange ↔
      Begins (reads false str) (tokens (replaceColon str)) := by
  have hfill : fillGhosts r.values str 0 false [] ≠ .error .outOfRange ↔
      0 + reads false str ≤ r.values.length :=
    fillGhosts_inBounds_iff (Nat.zero_le _) fun h => absurd h Bool.false_ne_true
  rw [← le_length_values hr, ← Nat.zero_add (reads false str), ← hfill, interpretGhosts,
    if_neg hsharp, Traced.outcome_bind_ok hr]
  cases h : fillGhosts r.values str 0 false [] with
  | error f =>
    rw [Traced.outcome_bind_error (Traced.outcome_lift _)]
    simp
  | ok filled =>
    rw [Traced.outcome_bind_ok (Traced.outcome_lift _)]
    simp

/-- Of `1:,1` one value is parsed, and a second one is taken. -/
theorem outOfRange_unfinished_pair :
    ¬ ∀ (sym : Str → Option ℤ) (reversed : Bool) (str : Str) (extents : List ℤ),
      (interpretGhosts sym reversed str extents).outcome ≠ .error .outOfRange := by
  intro h
  exact h (fun _ => none) false "1:,1".toList [4, 4] (by decide +kernel)

theorem inBounds_iff_begins_halo :
    (interpretGhosts (fun _ => some 3) false haloModel.ghosts [16, 8]).outcome ≠
        .error .outOfRange ↔
      Begins (reads false haloModel.ghosts) (tokens (replaceColon haloModel.ghosts)) :=
  inBounds_iff_begins (fun _ => some 3) false haloModel.ghosts [16, 8] (by decide)
    ⟨true, [1, 4, 2], []⟩ (by decide +kernel)

end Damaris.BoxLayout
