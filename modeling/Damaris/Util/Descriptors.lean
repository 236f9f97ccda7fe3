import Mathlib.Tactic
import Damaris.Util.CalcGrammar

/-!
# Whole descriptors

A descriptor is read to its end exactly where its tokens derive a list of expressions, and
then the values are those of the expressions, in order. Of any other text the longest
list it begins with is read.
-/
namespace Damaris.Calc

open Peg (Ends)

variable {sym : Str → Option ℤ} {Q P : List ℤ → Str → Prop} {N M : Prop} {E : Fault → Prop}

/-- What is read after an expression of the list. -/
def items (sym : Str → Option ℤ) : List ℤ → Rule (List ℤ) :=
  Peg.loop fun xs => (lit ',').seq fun _ => (expression (factor sym)).seq fun y =>
    .succeed (xs ++ [y])

theorem items_eq (sym : Str → Option ℤ) (xs : List ℤ) :
    items sym xs = (((lit ',').seq fun _ => (expression (factor sym)).seq fun y =>
      .succeed (xs ++ [y])).seq (items sym)).choice (.succeed xs) :=
  Peg.loop_eq (fun _ => (eats_lit ',').seq fun _ =>
    (parser_shrinks sym .expression).seq fun _ => .succeed _) xs

theorem ends_items {xs : List ℤ} {s : Str}
    (hstep : ∀ t, tokens s = .sym ',' :: tokens t → t.length < s.length →
      Ends (Level.expression.parser sym) t
        (fun y r => Ends (items sym (xs ++ [y])) r Q False E) N E)
    (hstop : N ∨ (∀ us, tokens s ≠ .sym ',' :: us) → Q xs s) :
    Ends (items sym xs) s Q False E := by
  rw [items_eq]
  have hround : Ends ((lit ',').seq fun _ => (expression (factor sym)).seq fun y =>
      .succeed (xs ++ [y])) s (fun ys r => Ends (items sym ys) r Q False E)
      (N ∨ ∀ us, tokens s ≠ .sym ',' :: us) E := by
    refine (ends_lit (by decide) .inr).seq fun _ t ht => ?_
    exact ((hstep t ht.1 ht.2).seq fun y r hr => .succeed hr).mono (fun _ _ => id) .inl fun _ => id
  refine (hround.seq fun ys r hr => ?_).choice fun h => .succeed (hstop h)
  exact hr.mono (fun _ _ => id) False.elim fun _ => id

/-- The values of the expressions, computed one after the other. -/
def evalAll (sym : Str → Option ℤ) (es : List Expr) : Except Fault (List ℤ) :=
  es.mapM fun e => e.eval sym

theorem evalAll_single (e : Expr) :
    evalAll sym [e] = e.eval sym >>= fun v => .ok [v] := by
  rw [evalAll, List.mapM_cons]
  cases e.eval sym <;> rfl

theorem evalAll_snoc (es : List Expr) (e : Expr) :
    evalAll sym (es ++ [e]) =
      evalAll sym es >>= fun vs => e.eval sym >>= fun v => .ok (vs ++ [v]) := by
  rw [evalAll, List.mapM_append, ← evalAll, ← evalAll, evalAll_single]
  cases evalAll sym es <;> cases e.eval sym <;> rfl

theorem evalAll_cons {e : Expr} {es : List Expr} {xs : List ℤ} :
    evalAll sym (e :: es) = .ok xs ↔
      ∃ x ys, e.eval sym = .ok x ∧ evalAll sym es = .ok ys ∧ xs = x :: ys := by
  rw [evalAll, List.mapM_cons, ← evalAll]
  cases e.eval sym with
  | error f => simp [bind, Except.bind]
  | ok x => cases evalAll sym es <;> simp [bind, Except.bind, pure, Except.pure, eq_comm]

/-- What is defined is computed right. -/
theorem evalAll_of_defined {es : List Expr} (h : ∀ e ∈ es, e.Defined sym) :
    evalAll sym es = .ok (es.map fun e => e.value sym) := by
  induction es with
  | nil => rfl
  | cons e es ih =>
    have he := Expr.eval_of_defined (h e List.mem_cons_self)
    have hes := ih fun e' he' => h e' (List.mem_cons_of_mem e he')
    rw [evalAll] at hes
    rw [evalAll, List.mapM_cons, he, hes]
    rfl

/-! ### Descriptors are read to their end -/

theorem ends_expression {e : Expr} {ts us : List Token} (h : Derives .expression e ts) {s : Str}
    (hs : tokens s = ts ++ us) (hend : ∀ L, Stops L us) :
    Ends (Level.expression.parser sym) s (fun v r => e.eval sym = .ok v ∧ tokens r = us) False
      fun f => e.eval sym = .error f :=
  derives_read h _ _ _ hs (fun _ => hend _)
    (fun _ _ hv hr => ends_more_stop (fun _ => hr ▸ hend _) ⟨hv, hr⟩) fun _ => id

theorem stops_comma (us : List Token) (L : Level) : Stops L (.sym ',' :: us) :=
  stops_sym fun op _ => by cases op <;> decide

theorem stops_nil (L : Level) : Stops L [] := fun _ _ _ h => by simp at h

theorem derivesList_read {es : List Expr} {ts : List Token} (h : DerivesList es ts) {s : Str}
    {us : List Token} (hs : tokens s = ts ++ us) (hend : ∀ L, Stops L us)
    (hok : ∀ vs r, evalAll sym es = .ok vs → tokens r = us → Ends (items sym vs) r Q False E)
    (herr : ∀ f, evalAll sym es = .error f → E f) : Ends (listExpr sym) s Q False E := by
  induction h generalizing s us Q with
  | @single e ts h =>
    rw [evalAll_single] at hok herr
    have he : Ends (Level.expression.parser sym) s (fun v r => e.eval sym = .ok v ∧ tokens r = us)
        False fun f => e.eval sym = .error f := ends_expression h hs hend
    refine Ends.seq (he.mono (fun _ _ => id) id fun f hf => herr f ?_) fun v r hr => ?_
    · rw [hf]
      rfl
    · refine hok [v] r ?_ hr.2
      rw [hr.1]
      rfl
  | @snoc es e ts vs hes h ih =>
    rw [evalAll_snoc] at hok herr
    rw [List.append_assoc, List.cons_append] at hs
    refine ih hs (stops_comma _) (fun xs r hxs hr => ?_) fun f hf => herr f ?_
    · rw [hxs] at hok herr
      refine ends_items (N := False) (fun t ht _ => ?_) fun hno => ?_
      · have htokens : tokens t = vs ++ us := by simpa [hr] using ht.symm
        refine (ends_expression h htokens hend).mono (fun y t' hy => ?_) id fun f hf => herr f ?_
        · refine hok (xs ++ [y]) t' ?_ hy.2
          rw [hy.1]
          rfl
        · rw [hf]
          rfl
      · exact hno.elim False.elim fun hno => absurd hr (hno _)
    · rw [hf]
      rfl

/-! ### What is read is a list -/

/-- Reading the tokens comes to a division by zero in one of the expressions. -/
def DividesByZero (sym : Str → Option ℤ) (ts : List Token) : Prop :=
  ZeroDivisor sym .expression ts ∨
    ∃ es us vs, DerivesList es us ∧ ts = us ++ .sym ',' :: vs ∧ ZeroDivisor sym .expression vs

/-- A list leads from one text to the other, and has these values. -/
def ListReading (sym : Str → Option ℤ) (s : Str) (xs : List ℤ) (r : Str) : Prop :=
  ∃ es ts, DerivesList es ts ∧ evalAll sym es = .ok xs ∧ tokens s = ts ++ tokens r

def ListBlames (sym : Str → Option ℤ) (s : Str) (f : Fault) : Prop :=
  f = .divisionByZero → DividesByZero sym (tokens s)

/-- A list that has been read is continued by one more expression. -/
theorem read_items {s r : Str} {xs : List ℤ} (h : ListReading sym s xs r) :
    Ends (items sym xs) r (ListReading sym s) False (ListBlames sym s) := by
  induction hn : r.length using Nat.strong_induction_on generalizing r xs with
  | _ n ih =>
    subst hn
    obtain ⟨es, ts, hes, hxs, hs⟩ := h
    refine ends_items (N := True) (fun t ht hlt => ?_) fun _ => ⟨es, ts, hes, hxs, hs⟩
    rw [ht] at hs
    refine ((read_derives sym .expression t).measure (parser_shrinks sym _)).mono ?_ id
      fun f hf h0 => .inr ⟨es, ts, tokens t, hes, hs, hf h0⟩
    rintro y t' ⟨⟨e, us, he, hy, hus⟩, hle⟩
    refine ih t'.length (hle.trans_lt hlt) ?_ rfl
    refine ⟨es ++ [e], ts ++ .sym ',' :: us, .snoc hes he, ?_, by simp [hs, hus]⟩
    rw [evalAll_snoc, hxs, hy]
    rfl

theorem read_list (sym : Str → Option ℤ) (s : Str) :
    Ends (listExpr sym) s (ListReading sym s) True (ListBlames sym s) := by
  have hfirst : Ends (Level.expression.parser sym) s (Reading sym .expression s) True
      (ListBlames sym s) :=
    (read_derives sym .expression s).mono (fun _ _ => id) id fun f hf h0 => .inl (hf h0)
  refine Ends.seq hfirst fun x r hr => ?_
  obtain ⟨e, ts, he, hx, hs⟩ := hr
  refine Ends.mono (read_items ⟨[e], ts, .single he, ?_, hs⟩) (fun _ _ => id) False.elim fun _ => id
  rw [evalAll_single, hx]
  rfl

/-! ### `phrase_parse` -/

theorem tokens_eq_nil {s : Str} (h : tokens s = []) : s.dropWhile isspace = [] := by
  have htokens := tokens_dropWhile_isspace s
  cases hs : s.dropWhile isspace with
  | nil => rfl
  | cons c t =>
    rw [hs, h, tokens_cons, if_neg (Bool.eq_false_iff.mp (not_isspace_head hs))] at htokens
    split_ifs at htokens

/-- What `phrase_parse` makes of what the grammar's start rule returns. -/
theorem outcome_phraseParse {s : Str} :
    (phraseParse sym s).outcome = (listExpr sym s).outcome.map fun
      | none => ⟨false, [], s⟩
      | some (xs, r) => ⟨true, xs, r.dropWhile isspace⟩ := by
  cases h : (listExpr sym s).outcome with
  | error f => exact Traced.outcome_bind_error h
  | ok reply => cases reply <;> exact Traced.outcome_bind_ok h

/-- What was returned was made of a reply of the start rule. -/
theorem reply_of_phraseParse {s : Str} {r : Parsed} (h : (phraseParse sym s).outcome = .ok r) :
    ((listExpr sym s).outcome = .ok none ∧ r = ⟨false, [], s⟩) ∨
      ∃ xs rest, (listExpr sym s).outcome = .ok (some (xs, rest)) ∧
        r = ⟨true, xs, rest.dropWhile isspace⟩ := by
  rw [outcome_phraseParse] at h
  cases hout : (listExpr sym s).outcome with
  | error f => simp [hout, Except.map] at h
  | ok reply =>
    rw [hout] at h
    obtain rfl := Except.ok.inj h
    cases reply with
    | none => exact .inl ⟨rfl, rfl⟩
    | some reply => exact .inr ⟨reply.1, reply.2, rfl, rfl⟩

theorem parsed_of_descriptor {es : List Expr} {s : Str} (h : Descriptor es s) :
    (phraseParse sym s).outcome = (evalAll sym es).map fun xs => ⟨true, xs, []⟩ := by
  have hend : Ends (listExpr sym) s (fun xs r => evalAll sym es = .ok xs ∧ tokens r = []) False
      fun f => evalAll sym es = .error f := by
    refine derivesList_read h (List.append_nil _).symm stops_nil (fun vs r hvs hr => ?_) fun _ => id
    refine ends_items (N := False) (fun t ht => ?_) fun _ => ⟨hvs, hr⟩
    simp [hr] at ht
  rw [outcome_phraseParse]
  cases hout : (listExpr sym s).outcome with
  | error f =>
    rw [hend.fault hout]
    rfl
  | ok reply =>
    cases reply with
    | none => exact absurd (hend.unmatched hout) id
    | some reply =>
      obtain ⟨hxs, hr⟩ := hend.matched hout
      rw [hxs]
      exact congrArg (fun r => Except.ok (Parsed.mk true reply.1 r)) (tokens_eq_nil hr)

theorem descriptor_of_complete {s : Str} {r : Parsed} (hr : (phraseParse sym s).outcome = .ok r)
    (h : r.complete = true) : ∃ es, Descriptor es s ∧ evalAll sym es = .ok r.values := by
  obtain ⟨-, rfl⟩ | ⟨xs, rest, hout, rfl⟩ := reply_of_phraseParse hr
  · cases h
  · obtain ⟨es, ts, hes, hxs, hs⟩ := (read_list sym s).matched hout
    have hrest : tokens rest = [] := by
      have hnil : rest.dropWhile isspace = [] := List.isEmpty_iff.mp h
      rw [← tokens_dropWhile_isspace, hnil, tokens_nil]
    rw [hrest, List.append_nil] at hs
    refine ⟨es, ?_, hxs⟩
    rw [Descriptor, hs]
    exact hes

/-- Where the evaluation of a descriptor ends, it has read it all. -/
theorem values_of_descriptor {es : List Expr} {s : Str} (h : Descriptor es s) {r : Parsed}
    (hr : (phraseParse sym s).outcome = .ok r) : ∃ xs, evalAll sym es = .ok xs ∧ r = ⟨true, xs, []⟩ := by
  rw [parsed_of_descriptor h] at hr
  cases hxs : evalAll sym es with
  | error f => simp [hxs, Except.map] at hr
  | ok xs =>
    rw [hxs] at hr
    exact ⟨xs, rfl, (Except.ok.inj hr).symm⟩

/-! ### Divisions by zero -/

theorem ends_of_dividesByZero {s : Str} (h : DividesByZero sym (tokens s)) :
    Ends (listExpr sym) s (fun _ _ => False) False fun _ => True := by
  rcases h with h | ⟨es, us, vs, hes, hs, h⟩
  · exact Ends.seq (ends_of_zeroDivisor h rfl) fun _ _ hr => hr.elim
  · refine derivesList_read hes hs (stops_comma _) (fun xs r _ hr => ?_) fun _ _ => trivial
    refine ends_items (N := False) (fun t ht _ => ?_) fun hno => ?_
    · have htokens : tokens t = vs := by simpa [hr] using ht.symm
      exact (ends_of_zeroDivisor h htokens).mono (fun _ _ => False.elim) id fun _ => id
    · exact hno.elim id fun hno => absurd hr (hno _)

/-- The parse divides by zero only where the text says so. -/
theorem dividesByZero_of_fault {s : Str}
    (h : (phraseParse sym s).outcome = .error .divisionByZero) : DividesByZero sym (tokens s) := by
  rw [outcome_phraseParse] at h
  cases hout : (listExpr sym s).outcome with
  | error f =>
    rw [hout] at h
    exact (read_list sym s).fault hout (Except.error.inj h)
  | ok reply => simp [hout, Except.map] at h

/-- Where the text says so the parse does not return. -/
theorem not_ok_of_dividesByZero {s : Str} (h : DividesByZero sym (tokens s)) (r : Parsed) :
    (phraseParse sym s).outcome ≠ .ok r := by
  intro hr
  obtain ⟨hout, -⟩ | ⟨xs, rest, hout, -⟩ := reply_of_phraseParse hr
  · exact (ends_of_dividesByZero h).unmatched hout
  · exact (ends_of_dividesByZero h).matched hout

/-! ### How far a list goes -/

theorem DerivesList.cons {e : Expr} {es : List Expr} {ts us : List Token}
    (h : Derives .expression e ts) (hs : DerivesList es us) :
    DerivesList (e :: es) (ts ++ .sym ',' :: us) := by
  induction hs with
  | single h' => exact .snoc (.single h) h'
  | snoc hs h' ih => simpa using DerivesList.snoc ih h'

/-- A list is read from its first expression on as well as up to its last one. -/
theorem DerivesList.cases_head {es : List Expr} {ts : List Token} (h : DerivesList es ts) :
    (∃ e, es = [e] ∧ Derives .expression e ts) ∨ ∃ e es' us vs, es = e :: es' ∧
      ts = us ++ .sym ',' :: vs ∧ Derives .expression e us ∧ DerivesList es' vs := by
  induction h with
  | @single e ts h => exact .inl ⟨e, rfl, h⟩
  | @snoc es e ts us hs h ih =>
    refine .inr ?_
    obtain ⟨e', rfl, h'⟩ | ⟨e', es', us', vs', rfl, rfl, h', hs'⟩ := ih
    · exact ⟨e', [e], ts, us, rfl, rfl, h', .single h⟩
    · exact ⟨e', es' ++ [e], us', vs' ++ .sym ',' :: us, rfl, by simp, h', .snoc hs' h⟩

/-- The tokens begin with a list of so many expressions. -/
def Begins (n : ℕ) (ts : List Token) : Prop :=
  n = 0 ∨ ∃ es us vs, es.length = n ∧ DerivesList es us ∧ ts = us ++ vs

theorem DerivesList.begins {es : List Expr} {ts : List Token} (h : DerivesList es ts) {n : ℕ}
    (hn : n ≤ es.length) (us : List Token) : Begins n (ts ++ us) := by
  induction h generalizing us with
  | @single e ts h =>
    rcases Nat.le_one_iff_eq_zero_or_eq_one.mp hn with rfl | rfl
    · exact .inl rfl
    · exact .inr ⟨[e], ts, us, rfl, .single h, rfl⟩
  | @snoc es e ts vs hs h ih =>
    rw [List.length_append] at hn
    rcases hn.eq_or_lt with rfl | hlt
    · exact .inr ⟨es ++ [e], _, us, by simp, .snoc hs h, rfl⟩
    · rw [List.append_assoc]
      exact ih (Nat.le_of_lt_succ hlt) _

theorem evalAll_length {es : List Expr} {xs : List ℤ} (h : evalAll sym es = .ok xs) :
    xs.length = es.length := by
  induction es generalizing xs with
  | nil =>
    obtain rfl := Except.ok.inj h
    rfl
  | cons e es ih =>
    obtain ⟨x, ys, -, hys, rfl⟩ := evalAll_cons.mp h
    simp [ih hys]

/-- The repetition only adds to the list. -/
theorem ends_items_length {xs : List ℤ} {s : Str} :
    Ends (items sym xs) s (fun ys _ => xs.length ≤ ys.length) False fun _ => True := by
  induction hn : s.length using Nat.strong_induction_on generalizing s xs with
  | _ n ih =>
    subst hn
    refine ends_items (N := True) (fun t _ hlt => ?_) fun _ => le_rfl
    refine (Ends.trivial.measure (parser_shrinks sym .expression)).mono (fun y r hr => ?_) id
      fun _ => id
    refine (ih r.length (hr.2.trans_lt hlt) rfl).mono (fun ys _ hys => ?_) id fun _ => id
    rw [List.length_append, List.length_singleton] at hys
    omega

/-- Where the tokens begin with a list, at least as many values are read. -/
theorem derivesList_length {es : List Expr} {ts us : List Token} (h : DerivesList es ts) {s : Str}
    (hs : tokens s = ts ++ us) :
    Ends (listExpr sym) s (fun xs _ => es.length ≤ xs.length) False fun _ => True := by
  cases h with
  | single h =>
    refine Ends.seq (derives_matches h hs) fun x r _ => ?_
    exact ends_items_length
  | @snoc es e ts vs hes h =>
    rw [List.append_assoc, List.cons_append] at hs
    refine derivesList_read hes hs (stops_comma _) (fun xs r hxs hr => ?_) fun _ _ => trivial
    refine ends_items (N := False) (fun t ht _ => ?_) fun hno => ?_
    · have htokens : tokens t = vs ++ us := by simpa [hr] using ht.symm
      refine (derives_matches h htokens).mono (fun y t' _ => ?_) id fun _ => id
      refine ends_items_length.mono (fun ys _ hys => ?_) id fun _ => id
      rw [List.length_append] at hys ⊢
      rwa [← evalAll_length hxs]
    · exact hno.elim False.elim fun hno => absurd hr (hno _)

/-- So many values are read exactly if the text begins with a list of so many expressions. -/
theorem le_length_values {s : Str} {r : Parsed} (hr : (phraseParse sym s).outcome = .ok r) (n : ℕ) :
    n ≤ r.values.length ↔ Begins n (tokens s) := by
  have hreply := reply_of_phraseParse hr
  constructor
  · intro h
    obtain ⟨-, rfl⟩ | ⟨xs, rest, hout, rfl⟩ := hreply
    · exact .inl (Nat.le_zero.mp h)
    · obtain ⟨es, ts, hes, hxs, hs⟩ := (read_list sym s).matched hout
      exact hs ▸ hes.begins (h.trans (evalAll_length hxs).le) _
  · rintro (rfl | ⟨es, us, vs, rfl, hes, hs⟩)
    · exact Nat.zero_le _
    · have hlen : Ends (listExpr sym) s (fun xs _ => es.length ≤ xs.length) False fun _ => True :=
        derivesList_length hes hs
      obtain ⟨hout, rfl⟩ | ⟨xs, rest, hout, rfl⟩ := hreply
      · exact absurd (hlen.unmatched hout) id
      · exact hlen.matched hout

/-! ### A text that is parsed to its end -/

/-- A text is parsed to its end exactly if it is a list of expressions, and the values
are those of the expressions as long as they are defined. -/
theorem parses_iff_descriptor (sym : Str → Option ℤ) (s : Str) :
    (∀ r, (phraseParse sym s).outcome = .ok r → (r.complete = true ↔ ∃ es, Descriptor es s)) ∧
    ∀ es, Descriptor es s → (∀ e ∈ es, e.Defined sym) →
      (phraseParse sym s).outcome = .ok ⟨true, es.map fun e => e.value sym, []⟩ := by
  refine ⟨fun r hr => ⟨fun h => ?_, fun h => ?_⟩, fun es h hdefined => ?_⟩
  · obtain ⟨es, hes, -⟩ := descriptor_of_complete hr h
    exact ⟨es, hes⟩
  · obtain ⟨es, hes⟩ := h
    obtain ⟨xs, -, rfl⟩ := values_of_descriptor hes hr
    rfl
  · rw [parsed_of_descriptor h, evalAll_of_defined hdefined]
    rfl

/-- `2*(x+1), 7/2` -/
def productExprs : List Expr :=
  [.binary .mul (.number 2) (.binary .add (.name ['x']) (.number 1)),
    .binary .div (.number 7) (.number 2)]

theorem descriptor_product : Descriptor productExprs "2*(x+1), 7/2".toList := by
  have htwo : Derives .term (.number 2) [.number 2] := .lift .term (.number (by decide))
  have hone : Derives .term (.number 1) [.number 1] := .lift .term (.number (by decide))
  have hx : Derives .expression (.name ['x']) [.name ['x']] :=
    .lift .expression (.lift .term (.name ['x']))
  have hseven : Derives .term (.number 7) [.number 7] := .lift .term (.number (by decide))
  have hproduct := Derives.binary .mul htwo (.parens (.binary .add hx hone))
  have hquotient := Derives.binary .div hseven (.number (n := 2) (by decide))
  exact .snoc (.single (.lift .expression hproduct)) (.lift .expression hquotient)

/-- With 3 for `x` the values are 8 and 3. -/
theorem parses_product :
    (phraseParse (fun _ => some 3) "2*(x+1), 7/2".toList).outcome = .ok ⟨true, [8, 3], []⟩ :=
  (parses_iff_descriptor (fun _ => some 3) "2*(x+1), 7/2".toList).2 productExprs descriptor_product
    (by decide)

end Damaris.Calc
