import Mathlib.Tactic
import Damaris.Util.CalcSyntax

/-!
# The grammar reads the language of descriptors

What each rule of the grammar does is said in terms of the tokens: where they begin with
a derivation of the rule's level the rule matches it, or faults while it evaluates it, and a match
or a fault comes from such a derivation. The operands of one level are joined by a
repetition, so a derivation is followed through its last operator.
-/
namespace Damaris.Calc

open Peg (Ends)

variable {sym : Str → Option ℤ} {L : Level} {Q P : ℤ → Str → Prop} {N M : Prop} {E : Fault → Prop}

/-! ### The tokens a rule looks at -/

/-- A character that is a token of its own. -/
def Plain (c : Char) : Prop := isspace c = false ∧ isWordStart c = false ∧ c.isDigit = false

instance (c : Char) : Decidable (Plain c) := inferInstanceAs (Decidable (_ ∧ _ ∧ _))

theorem tokens_plain {c : Char} (hc : Plain c) (s : Str) : tokens (c :: s) = .sym c :: tokens s := by
  obtain ⟨hspace, hstart, hdigit⟩ := hc
  simp [tokens_cons, hspace, hstart, hdigit]

theorem plain_symbol (op : Operator) : Plain op.symbol := by
  cases op <;> decide

theorem symbol_injective : Function.Injective Operator.symbol := by
  intro op op' h
  cases op <;> cases op' <;> first | rfl | exact absurd h (by decide)

/-- The first character that is not skipped. -/
theorem not_isspace_head {s t : Str} {c : Char} (h : s.dropWhile isspace = c :: t) :
    isspace c = false := by
  have hhead := List.head?_dropWhile_not isspace s
  simpa [h] using hhead

theorem ends_lit {op : Char} (hop : Plain op) {s : Str}
    (hnone : (∀ us, tokens s ≠ .sym op :: us) → N) :
    Ends (lit op) s (fun _ r => tokens s = .sym op :: tokens r ∧ r.length < s.length) N E := by
  have htokens := tokens_dropWhile_isspace s
  cases hs : s.dropWhile isspace with
  | nil =>
    rw [hs, tokens_nil] at htokens
    have hlit : (lit op s).outcome = .ok none := by simp [lit, token, Peg.read, hs]
    exact (Ends.of_outcome hlit).mpr (hnone fun us h => by simp [← htokens] at h)
  | cons c t =>
    rw [hs] at htokens
    by_cases hc : c = op
    · subst hc
      have hlit : (lit c s).outcome = .ok (some ((), t)) := by simp [lit, token, Peg.read, hs]
      exact (Ends.of_outcome hlit).mpr ⟨htokens ▸ tokens_plain hop t, eats_lit c hlit⟩
    · have hlit : (lit op s).outcome = .ok none := by simp [lit, token, Peg.read, hs, hc]
      refine (Ends.of_outcome hlit).mpr (hnone fun us h => ?_)
      simp only [← htokens, tokens_cons, not_isspace_head hs, Bool.false_eq_true, if_false] at h
      split_ifs at h <;> simp_all

theorem ends_identifier {s : Str} (hnone : (∀ n us, tokens s ≠ .name n :: us) → N) :
    Ends identifier s (fun n r => tokens s = .name n :: tokens r) N E := by
  have htokens := tokens_dropWhile_isspace s
  cases hs : s.dropWhile isspace with
  | nil =>
    rw [hs, tokens_nil] at htokens
    have hname : (identifier s).outcome = .ok none := by simp [identifier, token, Peg.read, hs]
    exact (Ends.of_outcome hname).mpr (hnone fun n us h => by simp [← htokens] at h)
  | cons c t =>
    rw [hs] at htokens
    have hspace := not_isspace_head hs
    cases hc : isWordStart c with
    | true =>
      have hname : (identifier s).outcome =
          .ok (some (c :: t.takeWhile isWord, t.dropWhile isWord)) := by
        simp [identifier, token, Peg.read, hs, hc]
      refine (Ends.of_outcome hname).mpr ?_
      show tokens s = .name (c :: t.takeWhile isWord) :: tokens (t.dropWhile isWord)
      simp [← htokens, tokens_cons, hspace, hc]
    | false =>
      have hname : (identifier s).outcome = .ok none := by
        simp [identifier, token, Peg.read, hs, hc]
      refine (Ends.of_outcome hname).mpr (hnone fun n us h => ?_)
      simp only [← htokens, tokens_cons, hspace, hc, Bool.false_eq_true, if_false] at h
      split_ifs at h <;> cases h

theorem ends_uint {s : Str} (hnone : (∀ n us, n < 2 ^ 32 → tokens s ≠ .number n :: us) → N) :
    Ends uint s (fun x r => ∃ n : ℕ, n < 2 ^ 32 ∧ x = Data.toInt n ∧ tokens s = .number n :: tokens r)
      N E := by
  have htokens := tokens_dropWhile_isspace s
  cases hs : s.dropWhile isspace with
  | nil =>
    rw [hs, tokens_nil] at htokens
    have hnum : (uint s).outcome = .ok none := by simp [uint, token, Peg.read, hs]
    exact (Ends.of_outcome hnum).mpr (hnone fun n us _ h => by simp [← htokens] at h)
  | cons c t =>
    rw [hs] at htokens
    have hspace := not_isspace_head hs
    cases hc : c.isDigit with
    | true =>
      have hnumber : tokens s =
          .number (decimal (c :: t.takeWhile Char.isDigit)) :: tokens (t.dropWhile Char.isDigit) := by
        simp [← htokens, tokens_cons, hspace, not_isWordStart_of_isDigit hc, hc]
      by_cases hn : decimal (c :: t.takeWhile Char.isDigit) < 2 ^ 32
      · have hnum : (uint s).outcome =
            .ok (some (Data.toInt (decimal (c :: t.takeWhile Char.isDigit)), t.dropWhile Char.isDigit)) := by
          simp only [uint, token, Peg.read, Traced.outcome_pure, hs, List.takeWhile_cons_of_pos hc,
            List.dropWhile_cons_of_pos hc]
          rw [if_pos ⟨List.cons_ne_nil _ _, hn⟩]
        exact (Ends.of_outcome hnum).mpr ⟨_, hn, rfl, hnumber⟩
      · have hnum : (uint s).outcome = .ok none := by
          simp only [uint, token, Peg.read, Traced.outcome_pure, hs, List.takeWhile_cons_of_pos hc]
          rw [if_neg fun h => hn h.2]
        refine (Ends.of_outcome hnum).mpr (hnone fun n us hlt h => hn ?_)
        rw [hnumber] at h
        simp only [List.cons.injEq, Token.number.injEq] at h
        exact h.1 ▸ hlt
    | false =>
      have hnum : (uint s).outcome = .ok none := by
        simp [uint, token, Peg.read, hs, hc]
      refine (Ends.of_outcome hnum).mpr (hnone fun n us _ h => ?_)
      simp only [← htokens, tokens_cons, hspace, hc, Bool.false_eq_true, if_false] at h
      split_ifs at h <;> cases h

/-! ### One rule at a time -/

/-- The rule of a level. -/
def Level.parser (sym : Str → Option ℤ) : Level → Rule ℤ
  | .factor => Calc.factor sym
  | .term => Calc.term (Calc.factor sym)
  | .expression => Calc.expression (Calc.factor sym)

/-- What the rule reads after its first operand. -/
def Level.more (sym : Str → Option ℤ) : Level → ℤ → Rule ℤ
  | .factor => .succeed
  | .term => operations '*' Operator.mul.apply '/' Operator.div.apply (Level.factor.parser sym)
  | .expression => operations '+' Operator.add.apply '-' Operator.sub.apply (Level.term.parser sym)

theorem parser_shrinks (sym : Str → Option ℤ) (L : Level) :
    Peg.Shrinks List.length (L.parser sym) := by
  have hfactor : Peg.Shrinks List.length (factor sym) := fun _ _ _ h =>
    Peg.iterate_fail Peg.Eats.fail.shrinks (guarded_factorRule sym).shrinks _ h
  cases L with
  | factor => exact hfactor
  | term => exact shrinks_term hfactor
  | expression => exact shrinks_expression hfactor

/-- A rule reads its first operand and goes on. -/
theorem ends_lift {s : Str} (h : Ends (L.below.parser sym) s P N E)
    (hmore : ∀ v r, P v r → Ends (L.more sym v) r Q N E) : Ends (L.parser sym) s Q N E := by
  cases L with
  | factor => exact h.mono hmore id fun _ => id
  | term => exact h.seq hmore
  | expression => exact h.seq hmore

/-- One operator and its operand. -/
theorem ends_operation {op : Char} (hop : Plain op) {p : Rule ℤ} {f : ℤ → ℤ → Except Fault ℤ}
    {val : ℤ} {s : Str}
    (hstep : ∀ t, tokens s = .sym op :: tokens t → t.length < s.length →
      Ends p t (fun y r => (∀ z, f val y = .ok z → Q z r) ∧ ∀ e, f val y = .error e → E e) N E)
    (hnone : (∀ us, tokens s ≠ .sym op :: us) → N) : Ends (operation op p f val) s Q N E := by
  exact (ends_lit hop hnone).seq fun _ t ht => (hstep t ht.1 ht.2).seq fun y r hy => .compute hy.1 hy.2

/-- The tokens do not go on with an operator of this level. -/
def Stops (L : Level) (ts : List Token) : Prop :=
  ∀ op : Operator, op.level = L → ∀ us, ts ≠ .sym op.symbol :: us

theorem stops_sym {c : Char} {ts : List Token} (h : ∀ op : Operator, op.level = L → op.symbol ≠ c) :
    Stops L (.sym c :: ts) := by
  intro op hop us heq
  simp only [List.cons.injEq, Token.sym.injEq] at heq
  exact h op hop heq.1.symm

theorem ends_more {v : ℤ} {s : Str} (hL : L ≠ .factor)
    (hstep : ∀ op : Operator, op.level = L → ∀ t, tokens s = .sym op.symbol :: tokens t →
      t.length < s.length → Ends (L.below.parser sym) t (fun y r =>
        (∀ z, op.apply v y = .ok z → Ends (L.more sym z) r Q False E) ∧
          ∀ e, op.apply v y = .error e → E e) N E)
    (hstop : N ∨ Stops L (tokens s) → Q v s) : Ends (L.more sym v) s Q False E := by
  have hpair : ∀ op op' : Operator, op.level = L → op'.level = L →
      (∀ o : Operator, o.level = L → o = op ∨ o = op') →
      L.more sym = operations op.symbol op.apply op'.symbol op'.apply (L.below.parser sym) →
      Ends (L.more sym v) s Q False E := by
    intro op op' hop hop' hall heq
    rw [heq, operations_eq (parser_shrinks sym L.below), ← heq]
    have hfirst : Ends (operation op.symbol (L.below.parser sym) op.apply v) s
        (fun z r => Ends (L.more sym z) r Q False E) (N ∨ ∀ us, tokens s ≠ .sym op.symbol :: us) E :=
      ends_operation (plain_symbol op)
        (fun t ht hlt => (hstep op hop t ht hlt).mono (fun _ _ => id) .inl fun _ => id) .inr
    have hsecond : (N ∨ ∀ us, tokens s ≠ .sym op.symbol :: us) →
        Ends (operation op'.symbol (L.below.parser sym) op'.apply v) s
          (fun z r => Ends (L.more sym z) r Q False E) (N ∨ Stops L (tokens s)) E := by
      intro hnone
      refine ends_operation (plain_symbol op')
        (fun t ht hlt => (hstep op' hop' t ht hlt).mono (fun _ _ => id) .inl fun _ => id) ?_
      intro hnone'
      refine hnone.imp_right fun hnone o ho => ?_
      rcases hall o ho with rfl | rfl
      · exact hnone
      · exact hnone'
    have hround := (hfirst.choice hsecond).seq fun z r hz =>
      hz.mono (fun _ _ => id) False.elim fun _ => id
    exact hround.choice fun h => .succeed (hstop h)
  cases L with
  | factor => exact absurd rfl hL
  | term => exact hpair .mul .div rfl rfl (fun o ho => by cases o <;> simp_all [Operator.level]) rfl
  | expression =>
    exact hpair .add .sub rfl rfl (fun o ho => by cases o <;> simp_all [Operator.level]) rfl

/-- Where no operator follows, the rule has read all it reads. -/
theorem ends_more_stop {v : ℤ} {s : Str} (hstop : L ≠ .factor → Stops L (tokens s)) (h : Q v s) :
    Ends (L.more sym v) s Q False E := by
  by_cases hL : L = .factor
  · subst hL
    exact .succeed h
  · refine ends_more (N := False) hL (fun op hop t ht _ => ?_) fun _ => h
    exact absurd ht (hstop hL op hop _)

/-- No factor begins here. -/
structure Barren (ts : List Token) : Prop where
  name : ∀ n us, ts ≠ .name n :: us
  number : ∀ n us, n < 2 ^ 32 → ts ≠ .number n :: us
  sym : ∀ c ∈ ['(', '-', '+'], ∀ us, ts ≠ .sym c :: us

theorem ends_factor {s : Str}
    (hname : ∀ n t, tokens s = .name n :: tokens t → Q ((sym n).getD 0) t)
    (hnumber : ∀ n t, n < 2 ^ 32 → tokens s = .number n :: tokens t → Q (Data.toInt n) t)
    (hparens : ∀ t, tokens s = .sym '(' :: tokens t → t.length < s.length →
      Ends ((Level.expression.parser sym).seq fun x => (lit ')').seq fun _ => .succeed x) t Q M E)
    (hneg : ∀ t, tokens s = .sym '-' :: tokens t → t.length < s.length →
      Ends ((factor sym).seq fun x => .compute (.lift (fit (-x)))) t Q M E)
    (hplus : ∀ t, tokens s = .sym '+' :: tokens t → t.length < s.length →
      Ends (factor sym) t Q M E)
    (hnone : M ∨ Barren (tokens s) → N) : Ends (factor sym) s Q N E := by
  have hsym : ∀ {c : Char} {p : Rule ℤ}, Plain c →
      (∀ t, tokens s = .sym c :: tokens t → t.length < s.length → Ends p t Q M E) →
      Ends ((lit c).seq fun _ => p) s Q (M ∨ ∀ us, tokens s ≠ .sym c :: us) E := fun hc hp =>
    (ends_lit hc .inr).seq fun _ t ht => (hp t ht.1 ht.2).mono (fun _ _ => id) .inl fun _ => id
  rw [factor_eq]
  refine Ends.choice (M := ∀ n us, tokens s ≠ .name n :: us) ?_ fun hn => ?_
  · refine (ends_identifier id).seq fun n t ht => .compute (fun x hx => ?_) (fun e he => ?_)
    · cases hx
      exact hname n t ht
    · cases he
  refine Ends.choice (M := ∀ n us, n < 2 ^ 32 → tokens s ≠ .number n :: us) ?_ fun hu => ?_
  · refine (ends_uint (E := E) id).mono ?_ id fun _ => id
    rintro x t ⟨n, hn⟩
    exact hn.2.1 ▸ hnumber n t hn.1 hn.2.2
  have hplain : Plain '(' ∧ Plain '-' ∧ Plain '+' := by decide
  refine (hsym hplain.1 hparens).choice fun hp => (hsym hplain.2.1 hneg).choice fun hm =>
    (hsym hplain.2.2 hplus).mono (fun _ _ => id) (fun hs => hnone ?_) fun _ => id
  rcases hp with hp | hp
  · exact .inl hp
  rcases hm with hm | hm
  · exact .inl hm
  refine hs.imp_right fun hs => ⟨hn, hu, fun c hc => ?_⟩
  simp only [List.mem_cons, List.not_mem_nil, or_false] at hc
  rcases hc with rfl | rfl | rfl
  · exact hp
  · exact hm
  · exact hs

section Head

variable {s : Str} {us : List Token}

theorem ends_number {n : ℕ} (hs : tokens s = .number n :: us) (hn : n < 2 ^ 32)
    (h : ∀ t, tokens t = us → Q (Data.toInt n) t) : Ends (factor sym) s Q False E := by
  refine ends_factor (M := False) (fun m t ht => ?_) (fun m t _ ht => ?_) (fun t ht => ?_)
    (fun t ht => ?_) (fun t ht => ?_) ?_
  · simp [hs] at ht
  · simp only [hs, List.cons.injEq, Token.number.injEq] at ht
    exact ht.1 ▸ h t ht.2.symm
  · simp [hs] at ht
  · simp [hs] at ht
  · simp [hs] at ht
  · exact fun h => h.elim id fun h => h.number n us hn hs

theorem ends_name {n : Str} (hs : tokens s = .name n :: us)
    (h : ∀ t, tokens t = us → Q ((sym n).getD 0) t) : Ends (factor sym) s Q False E := by
  refine ends_factor (M := False) (fun m t ht => ?_) (fun m t _ ht => ?_) (fun t ht => ?_)
    (fun t ht => ?_) (fun t ht => ?_) ?_
  · simp only [hs, List.cons.injEq, Token.name.injEq] at ht
    exact ht.1 ▸ h t ht.2.symm
  · simp [hs] at ht
  · simp [hs] at ht
  · simp [hs] at ht
  · simp [hs] at ht
  · exact fun h => h.elim id fun h => h.name n us hs

theorem ends_parens (hs : tokens s = .sym '(' :: us) (h : ∀ t, tokens t = us →
      Ends ((Level.expression.parser sym).seq fun x => (lit ')').seq fun _ => .succeed x) t Q False E) :
    Ends (factor sym) s Q False E := by
  refine ends_factor (M := False) (fun m t ht => ?_) (fun m t _ ht => ?_) (fun t ht _ => ?_)
    (fun t ht => ?_) (fun t ht => ?_) ?_
  · simp [hs] at ht
  · simp [hs] at ht
  · exact h t (by simpa [hs] using ht.symm)
  · simp [hs] at ht
  · simp [hs] at ht
  · exact fun h => h.elim id fun h => h.sym '(' (by simp) us hs

theorem ends_neg (hs : tokens s = .sym '-' :: us) (h : ∀ t, tokens t = us →
      Ends ((factor sym).seq fun x => .compute (.lift (fit (-x)))) t Q False E) :
    Ends (factor sym) s Q False E := by
  refine ends_factor (M := False) (fun m t ht => ?_) (fun m t _ ht => ?_) (fun t ht => ?_)
    (fun t ht _ => ?_) (fun t ht => ?_) ?_
  · simp [hs] at ht
  · simp [hs] at ht
  · simp [hs] at ht
  · exact h t (by simpa [hs] using ht.symm)
  · simp [hs] at ht
  · exact fun h => h.elim id fun h => h.sym '-' (by simp) us hs

theorem ends_plus (hs : tokens s = .sym '+' :: us)
    (h : ∀ t, tokens t = us → Ends (factor sym) t Q False E) : Ends (factor sym) s Q False E := by
  refine ends_factor (M := False) (fun m t ht => ?_) (fun m t _ ht => ?_) (fun t ht => ?_)
    (fun t ht => ?_) (fun t ht _ => ?_) ?_
  · simp [hs] at ht
  · simp [hs] at ht
  · simp [hs] at ht
  · simp [hs] at ht
  · exact h t (by simpa [hs] using ht.symm)
  · exact fun h => h.elim id fun h => h.sym '+' (by simp) us hs

end Head

/-! ### What is derived is read -/

/-- Where the tokens begin with those of the expression the rule reads that far, and then whatever
the rule reads after an operand. -/
def Reads (sym : Str → Option ℤ) (E : Fault → Prop) (L : Level) (e : Expr) (ts : List Token) :
    Prop :=
  ∀ (Q : ℤ → Str → Prop) (s : Str) (us : List Token), tokens s = ts ++ us →
    (L = .expression → Stops .term us) →
    (∀ v r, e.eval sym = .ok v → tokens r = us → Ends (L.more sym v) r Q False E) →
    (∀ f, e.eval sym = .error f → E f) → Ends (L.parser sym) s Q False E

theorem Reads.parens {e : Expr} {ts : List Token} (h : Reads sym E .expression e ts) :
    Reads sym E .factor e (.sym '(' :: (ts ++ [.sym ')'])) := by
  intro Q s us hs _ hok herr
  rw [List.cons_append, List.append_assoc] at hs
  have hparen : ∀ L, Stops L (.sym ')' :: us) := fun L => stops_sym fun op _ => by
    cases op <;> decide
  refine ends_parens hs fun t ht => ?_
  have hinner : Ends (Level.expression.parser sym) t
      (fun v r => e.eval sym = .ok v ∧ tokens r = .sym ')' :: us) False E :=
    h _ t _ ht (fun _ => hparen .term)
      (fun v r hv hr => ends_more_stop (fun _ => hr ▸ hparen _) ⟨hv, hr⟩) herr
  refine hinner.seq fun v r hr => ?_
  refine (ends_lit (by decide) fun hno => hno us hr.2).seq fun _ t ht => ?_
  exact hok v t hr.1 (by simpa [hr.2] using ht.1.symm)

theorem Reads.neg {e : Expr} {ts : List Token} (h : Reads sym E .factor e ts) :
    Reads sym E .factor (.neg e) (.sym '-' :: ts) := by
  intro Q s us hs _ hok herr
  have heval : (Expr.neg e).eval sym = e.eval sym >>= fun x => fit (-x) := rfl
  refine ends_neg hs fun t ht => ?_
  have hinner : Ends (factor sym) t (fun v r => e.eval sym = .ok v ∧ tokens r = us) False E := by
    refine h _ t us ht (fun h => by cases h) (fun v r hv hr => .succeed ⟨hv, hr⟩) fun f hf => ?_
    refine herr f ?_
    rw [heval, hf]
    rfl
  refine hinner.seq fun v r hr => ?_
  rw [heval, hr.1] at hok herr
  exact .compute (fun x hx => hok x r hx hr.2) herr

/-- An operand of the level below is read as an expression of this level. -/
theorem Reads.lift {e : Expr} {ts : List Token} (h : Reads sym E L.below e ts) :
    Reads sym E L e ts := by
  intro Q s us hs hstop hok herr
  have hoperand : Ends (L.below.parser sym) s (fun v r => e.eval sym = .ok v ∧ tokens r = us)
      False E := by
    refine h _ s us hs (fun hL => ?_) (fun v r hv hr => ?_) herr
    · cases L <;> cases hL
    · refine ends_more_stop (fun hL => ?_) ⟨hv, hr⟩
      cases L with
      | factor => exact absurd rfl hL
      | term => exact absurd rfl hL
      | expression => exact hr ▸ hstop rfl
  exact ends_lift hoperand fun v r h => hok v r h.1 h.2

/-- The left operand is read first; the repetition after it reads the operator and the right one. -/
theorem Reads.binary {op : Operator} {a b : Expr} {ts vs : List Token}
    (ha : Reads sym E op.level a ts) (hb : Reads sym E op.level.below b vs) :
    Reads sym E op.level (.binary op a b) (ts ++ .sym op.symbol :: vs) := by
  intro Q s us hs hstop hok herr
  have heval : (Expr.binary op a b).eval sym =
    a.eval sym >>= fun x => b.eval sym >>= fun y => op.apply x y := rfl
  rw [List.append_assoc, List.cons_append] at hs
  refine ha _ s _ hs (fun hL => stops_sym fun o ho => ?_) (fun x r hx hr => ?_) fun f hf => herr f ?_
  · intro h
    rw [symbol_injective h, hL] at ho
    cases ho
  · rw [heval, hx] at hok herr
    have hlevel : op.level ≠ .factor := by
      cases op <;> simp [Operator.level]
    refine ends_more (N := False) hlevel (fun o ho t ht _ => ?_) fun h => ?_
    · simp only [hr, List.cons.injEq, Token.sym.injEq] at ht
      obtain ⟨hsymbol, htokens⟩ := ht
      obtain rfl := symbol_injective hsymbol
      refine hb _ t us htokens.symm (fun hL => ?_) (fun y t' hy ht' => ?_) fun f hf => herr f ?_
      · cases op <;> cases hL
      · have happly : (Except.ok x >>= fun x => b.eval sym >>= fun y => op.apply x y) =
            op.apply x y := by
          rw [hy]
          rfl
        rw [happly] at hok herr
        refine ends_more_stop (fun hL => ?_) ⟨fun z hz => hok z t' hz ht', herr⟩
        rw [ht']
        cases op with
        | add => exact hstop rfl
        | sub => exact hstop rfl
        | mul => exact absurd rfl hL
        | div => exact absurd rfl hL
      · rw [hf]
        rfl
    · exact h.elim False.elim fun h => absurd hr (h op rfl _)
  · rw [heval, hf]
    rfl

theorem derives_read {e : Expr} {ts : List Token} (h : Derives L e ts) : Reads sym E L e ts := by
  induction h with
  | number hn => exact fun Q s us hs _ hok _ => ends_number hs hn fun t ht => hok _ t rfl ht
  | name n => exact fun Q s us hs _ hok _ => ends_name hs fun t ht => hok _ t rfl ht
  | parens h ih => exact ih.parens
  | neg h ih => exact ih.neg
  | plus h ih =>
    exact fun Q s us hs _ hok herr =>
      ends_plus hs fun t ht => ih Q t us ht (fun h => by cases h) hok herr
  | lift L h ih => exact ih.lift
  | binary op ha hb iha ihb => exact iha.binary ihb

/-- The repetition after an operand always matches. -/
theorem ends_more_some {v : ℤ} {s : Str} :
    Ends (L.more sym v) s (fun _ _ => True) False fun _ => True := by
  cases L with
  | factor => exact .succeed trivial
  | term =>
    rw [Level.more, operations_eq (parser_shrinks sym .factor)]
    exact Ends.trivial.choice fun _ => .succeed trivial
  | expression =>
    rw [Level.more, operations_eq (parser_shrinks sym .term)]
    exact Ends.trivial.choice fun _ => .succeed trivial

theorem derives_factor {e : Expr} {ts : List Token} (h : Derives L e ts) :
    ∃ e' us vs, Derives .factor e' us ∧ ts = us ++ vs := by
  induction h with
  | number hn => exact ⟨_, _, [], .number hn, (List.append_nil _).symm⟩
  | name n => exact ⟨_, _, [], .name n, (List.append_nil _).symm⟩
  | parens h ih => exact ⟨_, _, [], .parens h, (List.append_nil _).symm⟩
  | neg h ih => exact ⟨_, _, [], .neg h, (List.append_nil _).symm⟩
  | plus h ih => exact ⟨_, _, [], .plus h, (List.append_nil _).symm⟩
  | lift L h ih => exact ih
  | binary op ha hb iha ihb =>
    obtain ⟨e', us, vs, he', rfl⟩ := iha
    exact ⟨e', us, vs ++ _, he', List.append_assoc ..⟩

/-- Where the tokens begin with a derivation of its level, a rule matches or faults. -/
theorem derives_matches {e : Expr} {ts us : List Token} (h : Derives L e ts) {s : Str}
    (hs : tokens s = ts ++ us) :
    Ends (L.parser sym) s (fun _ _ => True) False fun _ => True := by
  obtain ⟨e', vs, ws, he', rfl⟩ := derives_factor h
  rw [List.append_assoc] at hs
  have hfactor : Ends (factor sym) s (fun _ _ => True) False fun _ => True :=
    derives_read he' _ _ _ hs (fun h => by cases h) (fun _ _ _ _ => ends_more_some)
      fun _ _ => trivial
  have hterm : Ends (Level.term.parser sym) s (fun _ _ => True) False fun _ => True :=
    ends_lift (L := .term) hfactor fun _ _ _ => ends_more_some
  cases L with
  | factor => exact hfactor
  | term => exact hterm
  | expression => exact ends_lift (L := .expression) hterm fun _ _ _ => ends_more_some

/-! ### What is read is derived -/

/-- A derivation of the level's leads from one text to the other, and evaluates to this. -/
def Reading (sym : Str → Option ℤ) (L : Level) (s : Str) (v : ℤ) (r : Str) : Prop :=
  ∃ e ts, Derives L e ts ∧ e.eval sym = .ok v ∧ tokens s = ts ++ tokens r

/-- Only a divisor that is zero makes a division fault. -/
def Blames (sym : Str → Option ℤ) (L : Level) (s : Str) (f : Fault) : Prop :=
  f = .divisionByZero → ZeroDivisor sym L (tokens s)

theorem fit_ne_divisionByZero (x : ℤ) : fit x ≠ .error .divisionByZero := by
  rw [fit]
  split_ifs <;> simp

theorem apply_divisionByZero {op : Operator} {x y : ℤ}
    (h : op.apply x y = .error .divisionByZero) : op = .div ∧ y = 0 := by
  cases op with
  | add => exact absurd h (fit_ne_divisionByZero _)
  | sub => exact absurd h (fit_ne_divisionByZero _)
  | mul => exact absurd h (fit_ne_divisionByZero _)
  | div =>
    refine ⟨rfl, by_contra fun hy => fit_ne_divisionByZero (x.tdiv y) ?_⟩
    exact (if_neg hy).symm.trans h

/-- A reading is continued by one more operator. -/
theorem read_more {s r : Str} {v : ℤ} (hL : L ≠ .factor)
    (hop : ∀ t, t.length < r.length →
      Ends (L.below.parser sym) t (Reading sym L.below t) True (Blames sym L.below t))
    (h : Reading sym L s v r) :
    Ends (L.more sym v) r (Reading sym L s) False (Blames sym L s) := by
  induction hn : r.length using Nat.strong_induction_on generalizing r v with
  | _ n ih =>
    subst hn
    obtain ⟨a, ts, ha, hv, hs⟩ := h
    refine ends_more (N := True) hL (fun op hlevel t ht hlt => ?_) fun _ => ⟨a, ts, ha, hv, hs⟩
    subst hlevel
    rw [ht] at hs
    refine ((hop t hlt).measure (parser_shrinks sym _)).mono ?_ id fun f hf h0 => ?_
    · rintro y t' ⟨⟨b, us, hb, hy, hus⟩, hle⟩
      rw [hus] at hs
      refine ⟨fun z hz => ?_, fun f hf h0 => ?_⟩
      · refine ih t'.length (hle.trans_lt hlt)
          (fun t'' h'' => hop t'' (h''.trans (hle.trans_lt hlt))) ?_ rfl
        refine ⟨.binary op a b, ts ++ .sym op.symbol :: us, .binary op ha hb, ?_, by simp [hs]⟩
        rw [Expr.eval, hv, hy]
        exact hz
      · obtain ⟨rfl, rfl⟩ := apply_divisionByZero (h0 ▸ hf)
        exact hs ▸ .here ha hb hy (tokens t')
    · exact hs ▸ .binary op ha (hf h0)

theorem read_lift {s : Str}
    (h : ∀ t, t.length ≤ s.length →
      Ends (L.below.parser sym) t (Reading sym L.below t) True (Blames sym L.below t)) :
    Ends (L.parser sym) s (Reading sym L s) True (Blames sym L s) := by
  by_cases hL : L = .factor
  · subst hL
    exact h s le_rfl
  · have hfirst := ((h s le_rfl).measure (parser_shrinks sym _)).mono (fun _ _ => id) id
      fun f (hf : Blames sym L.below s f) => (fun h0 => .lift L (hf h0) : Blames sym L s f)
    refine ends_lift hfirst fun v r hr => ?_
    obtain ⟨⟨e, ts, he, hv, hs⟩, hle⟩ := hr
    exact (read_more hL (fun t ht => h t (ht.le.trans hle)) ⟨e, ts, .lift L he, hv, hs⟩).mono
      (fun _ _ => id) False.elim fun _ => id

theorem read_factor (s : Str) :
    Ends (factor sym) s (Reading sym .factor s) True (Blames sym .factor s) := by
  induction hn : s.length using Nat.strong_induction_on generalizing s with
  | _ n ih =>
    subst hn
    refine ends_factor (M := True) (fun m t ht => ?_) (fun m t hm ht => ?_) (fun t ht hlt => ?_)
      (fun t ht hlt => ?_) (fun t ht hlt => ?_) fun _ => trivial
    · exact ⟨.name m, [.name m], .name m, rfl, ht⟩
    · exact ⟨.number m, [.number m], .number hm, rfl, ht⟩
    · have hterm : ∀ u, u.length ≤ t.length → Ends (Level.term.parser sym) u
          (Reading sym .term u) True (Blames sym .term u) := fun u hu =>
        read_lift fun w hw => ih w.length (hw.trans_lt (hu.trans_lt hlt)) w rfl
      have hin : Ends (Level.expression.parser sym) t (Reading sym .expression t) True
          (Blames sym .factor s) :=
        (read_lift hterm).mono (fun _ _ => id) id fun f hf h0 => ht ▸ .parens (hf h0)
      refine hin.seq fun x r hr => ?_
      obtain ⟨e, ts, he, hv, hs⟩ := hr
      refine (ends_lit (by decide) fun _ => trivial).seq fun _ t' ht' => .succeed ?_
      exact ⟨e, .sym '(' :: (ts ++ [.sym ')']), .parens he, hv, by simp [ht, hs, ht'.1]⟩
    · have hin : Ends (factor sym) t (Reading sym .factor t) True (Blames sym .factor s) :=
        Ends.mono (ih t.length hlt t rfl) (fun _ _ => id) id fun f hf h0 => ht ▸ .neg (hf h0)
      refine hin.seq fun x r hr => ?_
      obtain ⟨e, ts, he, hv, hs⟩ := hr
      refine .compute (fun z hz => ?_) fun f hf h0 => absurd (h0 ▸ hf) (fit_ne_divisionByZero _)
      refine ⟨.neg e, .sym '-' :: ts, .neg he, ?_, by simp [ht, hs]⟩
      rw [Expr.eval, hv]
      exact hz
    · refine Ends.mono (ih t.length hlt t rfl) ?_ id fun f hf h0 => ht ▸ .plus (hf h0)
      rintro x r ⟨e, ts, he, hv, hs⟩
      exact ⟨e, .sym '+' :: ts, .plus he, hv, by simp [ht, hs]⟩

/-- A rule matches, or faults on a zero divisor, only where a derivation of its level says so. -/
theorem read_derives (sym : Str → Option ℤ) (L : Level) (s : Str) :
    Ends (L.parser sym) s (Reading sym L s) True (Blames sym L s) := by
  have hterm : ∀ t, Ends (Level.term.parser sym) t (Reading sym .term t) True (Blames sym .term t) :=
    fun t => read_lift fun u _ => read_factor u
  cases L with
  | factor => exact read_factor s
  | term => exact hterm s
  | expression => exact read_lift fun t _ => hterm t

/-! ### A zero divisor is never survived -/

theorem ends_of_zeroDivisor {ts : List Token} (h : ZeroDivisor sym L ts) {s : Str}
    (hs : tokens s = ts) :
    Ends (L.parser sym) s (fun _ _ => False) False fun _ => True := by
  induction h generalizing s with
  | @here a b ts us ha hb h0 rest =>
    refine derives_read ha _ _ _ hs (fun hL => by cases hL) (fun v r _ hr => ?_) fun _ _ => trivial
    refine ends_more (N := False) (by simp) (fun op hop t ht _ => ?_) fun hstop => ?_
    · simp only [hr, List.cons.injEq, Token.sym.injEq] at ht
      obtain ⟨hsymbol, htokens⟩ := ht
      obtain rfl : Operator.div = op := symbol_injective hsymbol
      refine derives_read hb _ _ _ htokens.symm (fun hL => by cases hL)
        (fun y t' hy _ => .succeed ⟨fun z hz => ?_, fun _ _ => trivial⟩) fun _ _ => trivial
      obtain rfl : 0 = y := Except.ok.inj (h0.symm.trans hy)
      exact absurd hz (by simp [Operator.apply, divide])
    · exact hstop.elim id fun hstop => absurd hr (hstop .div rfl _)
  | parens h ih => exact ends_parens hs fun t ht => (ih ht).seq fun _ _ hr => hr.elim
  | neg h ih => exact ends_neg hs fun t ht => Ends.seq (ih ht) fun _ _ hr => hr.elim
  | plus h ih => exact ends_plus hs fun t ht => ih ht
  | lift L h ih => exact ends_lift (ih hs) fun _ _ hr => hr.elim
  | @binary op a ts us ha h ih =>
    refine derives_read ha _ _ _ hs (fun hL => stops_sym fun o ho => ?_) (fun v r _ hr => ?_)
      fun _ _ => trivial
    · intro heq
      rw [symbol_injective heq, hL] at ho
      cases ho
    · refine ends_more (N := False) (by cases op <;> simp [Operator.level]) (fun o _ t ht _ => ?_)
        fun hstop => ?_
      · simp only [hr, List.cons.injEq, Token.sym.injEq] at ht
        obtain ⟨hsymbol, htokens⟩ := ht
        obtain rfl := symbol_injective hsymbol
        exact (ih htokens.symm).mono (fun _ _ => False.elim) id fun _ => id
      · exact hstop.elim id fun hstop => absurd hr (hstop op rfl _)

end Damaris.Calc
