import Mathlib.Tactic
import Damaris.Data.Block
import Damaris.Lib.Peg

/-!
# `Calc`

The grammar of dimension descriptors: a comma-separated list of expressions in
`int` over unsigned numbers and the names of parameters. A name is looked up as
soon as it is read, also in an alternative that does not match in the end.
-/
namespace Damaris

/-- A `std::string`, one character for each byte. -/
abbrev Str := List Char

/-- What a run does not survive. -/
inductive Fault
  | overflow
  | divisionByZero
  | outOfRange
  | dangling
  deriving DecidableEq

namespace Calc

/-- A parser of the grammar, whose skipper is `ascii::space`. -/
abbrev Rule (α : Type) := Peg Str Fault Char α

def isspace (c : Char) : Bool := c == ' ' || (9 ≤ c.toNat && c.toNat ≤ 13)

/-- `alpha | char_("_")` -/
def isWordStart (c : Char) : Bool := c.isAlpha || c == '_'

/-- `alnum | char_("_")` -/
def isWord (c : Char) : Bool := c.isAlphanum || c == '_'

/-- White space is skipped before a token, not inside it. -/
def token {α : Type} (f : Str → Option (α × Str)) : Rule α :=
  Peg.read fun s => f (s.dropWhile isspace)

def lit (op : Char) : Rule Unit :=
  token fun
    | [] => none
    | c :: s => if c = op then some ((), s) else none

def identifier : Rule Str :=
  token fun
    | [] => none
    | c :: s => if isWordStart c then some (c :: s.takeWhile isWord, s.dropWhile isWord) else none

/-- The number a list of decimal digits writes. -/
def decimal (digits : Str) : ℕ := digits.foldl (fun n c => 10 * n + (c.toNat - 48)) 0

/-- Does not match where the number does not fit an `unsigned int`. -/
def uint : Rule ℤ :=
  token fun s =>
    let digits := s.takeWhile Char.isDigit
    if digits ≠ [] ∧ decimal digits < 2 ^ 32 then
      some (Data.toInt (decimal digits), s.dropWhile Char.isDigit)
    else none

/-- Signed arithmetic is undefined where the result does not fit. -/
def fit (x : ℤ) : Except Fault ℤ := if Data.toInt x = x then .ok x else .error .overflow

def divide (x y : ℤ) : Except Fault ℤ := if y = 0 then .error .divisionByZero else fit (x.tdiv y)

/-- `op >> operand [_val = f(_val, _1)]` -/
def operation (op : Char) (operand : Rule ℤ) (f : ℤ → ℤ → Except Fault ℤ) (val : ℤ) : Rule ℤ :=
  (lit op).seq fun _ => operand.seq fun x => .compute (.lift (f val x))

/-- The operands that follow are taken from left to right. -/
def operations (op : Char) (f : ℤ → ℤ → Except Fault ℤ) (op' : Char)
    (f' : ℤ → ℤ → Except Fault ℤ) (operand : Rule ℤ) : ℤ → Rule ℤ :=
  Peg.loop fun val => (operation op operand f val).choice (operation op' operand f' val)

def term (factor : Rule ℤ) : Rule ℤ :=
  factor.seq (operations '*' (fun x y => fit (x * y)) '/' divide factor)

def expression (factor : Rule ℤ) : Rule ℤ :=
  (term factor).seq
    (operations '+' (fun x y => fit (x + y)) '-' (fun x y => fit (x - y)) (term factor))

/-- `_r1[_1]` with a `ParameterMap<int>`, which has 0 for an unknown name. -/
def value (sym : Str → Option ℤ) : Rule ℤ :=
  identifier.seq fun n => .compute (.ask n ((sym n).getD 0))

def factorRule (sym : Str → Option ℤ) (factor : Rule ℤ) : Rule ℤ :=
  (value sym).choice <| uint.choice <|
  ((lit '(').seq fun _ => (expression factor).seq fun x => (lit ')').seq fun _ => .succeed x).choice <|
  ((lit '-').seq fun _ => factor.seq fun x => .compute (.lift (fit (-x)))).choice <|
  ((lit '+').seq fun _ => factor)

def factor (sym : Str → Option ℤ) : Rule ℤ := Peg.fix (factorRule sym)

/-- `expression % ','` -/
def listExpr (sym : Str → Option ℤ) : Rule (List ℤ) :=
  (expression (factor sym)).seq fun x => Peg.loop (fun xs =>
    (lit ',').seq fun _ => (expression (factor sym)).seq fun y => .succeed (xs ++ [y])) [x]

/-- What `phrase_parse` returns, stores, and leaves unread. -/
structure Parsed where
  matched : Bool
  values : List ℤ
  rest : Str
  deriving DecidableEq

/-- `phrase_parse` with this grammar. A match is followed by one more skip. -/
def phraseParse (sym : Str → Option ℤ) (s : Str) : Traced Str Fault Parsed :=
  listExpr sym s >>= fun
    | none => pure ⟨false, [], s⟩
    | some (e, rest) => pure ⟨true, e, rest.dropWhile isspace⟩

/-- The descriptor was read to its end. -/
def Parsed.complete (r : Parsed) : Bool := r.matched && r.rest.isEmpty

theorem le_of_isWordStart {c : Char} (h : isWordStart c = true) : 65 ≤ c.toNat := by
  have hval : ∀ d : Char, d.val ≤ c.val → d.toNat ≤ c.toNat := fun d => UInt32.le_iff_toNat_le.mp
  rcases Bool.or_eq_true_iff.mp h with h | h
  · rcases Bool.or_eq_true_iff.mp (show (c.isUpper || c.isLower) = true from h) with h | h
    · exact hval 'A' (of_decide_eq_true h).1
    · have hlower : 97 ≤ c.toNat := hval 'a' (of_decide_eq_true (Bool.and_eq_true_iff.mp h).1)
      omega
  · rw [beq_iff_eq.mp h]
    decide

theorem not_isWordStart_of_isspace {c : Char} (h : isspace c = true) : isWordStart c = false := by
  refine Bool.eq_false_iff.mpr fun hc => absurd (le_of_isWordStart hc) ?_
  simp only [isspace, Bool.or_eq_true, Bool.and_eq_true, beq_iff_eq, decide_eq_true_eq] at h
  rcases h with rfl | ⟨-, h⟩
  · decide
  · omega

theorem not_isWordStart_of_isDigit {c : Char} (h : c.isDigit = true) : isWordStart c = false := by
  refine Bool.eq_false_iff.mpr fun hc => absurd (le_of_isWordStart hc) ?_
  have := (Char.isDigit_iff_toNat.mp h).2
  have : '9'.toNat = 57 := rfl
  omega

theorem isWord_of_isWordStart {c : Char} (h : isWordStart c = true) : isWord c = true := by
  rcases Bool.or_eq_true_iff.mp h with h | h
  · simp [isWord, Char.isAlphanum, h]
  · simp [isWord, h]

/-! ### Where the grammar looks names up -/

/-- `W` finds in a text every name that starts where no other is being read. -/
structure Finds (W : Str → Set Str) : Prop where
  skip : ∀ c s, isWordStart c = false → W s ⊆ W (c :: s)
  word : ∀ c s, isWordStart c = true → c :: s.takeWhile isWord ∈ W (c :: s)
  rest : ∀ c s, isWordStart c = true → W (s.dropWhile isWord) ⊆ W (c :: s)

namespace Finds

variable {W : Str → Set Str}

theorem dropWhile (hW : Finds W) {f : Char → Bool} (hf : ∀ c, f c = true → isWordStart c = false)
    (s : Str) : W (s.dropWhile f) ⊆ W s := by
  induction s with
  | nil => exact subset_rfl
  | cons c s ih =>
    rw [List.dropWhile_cons]
    split_ifs with h
    · exact ih.trans (hW.skip c s (hf c h))
    · exact subset_rfl

theorem token (hW : Finds W) {α : Type} {f : Str → Option (α × Str)}
    (hf : ∀ s a r, f s = some (a, r) → W r ⊆ W s) : Peg.Within W (token f) :=
  .read fun s a r h => (hf _ a r h).trans (hW.dropWhile (fun _ => not_isWordStart_of_isspace) s)

theorem lit (hW : Finds W) {op : Char} (hop : isWordStart op = false) : Peg.Within W (lit op) := by
  refine hW.token fun s a r h => ?_
  cases s with
  | nil => simp at h
  | cons c s =>
    simp only [Option.ite_none_right_eq_some, Option.some.injEq, Prod.mk.injEq] at h
    obtain ⟨rfl, -, rfl⟩ := h
    exact hW.skip c s hop

theorem uint (hW : Finds W) : Peg.Within W uint := by
  refine hW.token fun s a r h => ?_
  simp only [Option.ite_none_right_eq_some, Option.some.injEq, Prod.mk.injEq] at h
  obtain ⟨-, -, rfl⟩ := h
  exact hW.dropWhile (fun _ => not_isWordStart_of_isDigit) s

/-- The name that is read is one that `W` finds. -/
theorem identifier (hW : Finds W) {s n r : Str}
    (h : (identifier s).outcome = .ok (some (n, r))) : n ∈ W s ∧ W r ⊆ W s := by
  have hskip := hW.dropWhile (fun _ => not_isWordStart_of_isspace) s
  simp only [Calc.identifier, Calc.token, Peg.read, Traced.outcome_pure, Except.ok.injEq] at h
  cases hs : s.dropWhile isspace with
  | nil => simp [hs] at h
  | cons c t =>
    simp only [hs, Option.ite_none_right_eq_some, Option.some.injEq, Prod.mk.injEq] at h
    obtain ⟨hc, rfl, rfl⟩ := h
    rw [hs] at hskip
    exact ⟨hskip (hW.word c t hc), (hW.rest c t hc).trans hskip⟩

theorem value (hW : Finds W) (sym : Str → Option ℤ) : Peg.Within W (value sym) := by
  constructor
  · intro s n hn
    rcases Traced.mem_asked_bind.mp hn with hn | ⟨_ | ⟨m, r⟩, hr, hn⟩
    · simp [Calc.identifier, Calc.token, Peg.read] at hn
    · simp at hn
    · simp only [Peg.compute, Traced.mem_asked_bind] at hn
      rcases hn with hn | ⟨a, -, hn⟩
      · rw [List.mem_singleton.mp hn]
        exact (hW.identifier hr).1
      · simp at hn
  · intro s a r h
    obtain ⟨n, m, hn, ha⟩ := Peg.seq_eq_ok.mp h
    rw [(Peg.compute_eq_ok.mp ha).2]
    exact (hW.identifier hn).2

theorem operation (hW : Finds W) {op : Char} (hop : isWordStart op = false) {p : Rule ℤ}
    (hp : Peg.Within W p) (f : ℤ → ℤ → Except Fault ℤ) (val : ℤ) :
    Peg.Within W (operation op p f val) :=
  (hW.lit hop).seq fun _ => hp.seq fun x => .compute_lift (f val x)

theorem operations (hW : Finds W) {op op' : Char} (hop : isWordStart op = false)
    (hop' : isWordStart op' = false) {p : Rule ℤ} (hp : Peg.Within W p)
    (f f' : ℤ → ℤ → Except Fault ℤ) (val : ℤ) : Peg.Within W (operations op f op' f' p val) :=
  .loop (fun val => (hW.operation hop hp f val).choice (hW.operation hop' hp f' val)) val

theorem term (hW : Finds W) {p : Rule ℤ} (hp : Peg.Within W p) : Peg.Within W (term p) :=
  hp.seq (hW.operations (by decide) (by decide) hp _ _)

theorem expression (hW : Finds W) {p : Rule ℤ} (hp : Peg.Within W p) :
    Peg.Within W (expression p) :=
  (hW.term hp).seq (hW.operations (by decide) (by decide) (hW.term hp) _ _)

theorem factor (hW : Finds W) (sym : Str → Option ℤ) : Peg.Within W (factor sym) := by
  refine .fix fun p hp => ?_
  refine (hW.value sym).choice (hW.uint.choice (.choice ?_ (.choice ?_ ?_)))
  · exact (hW.lit (by decide)).seq fun _ => (hW.expression hp).seq fun x =>
      (hW.lit (by decide)).seq fun _ => .succeed x
  · exact (hW.lit (by decide)).seq fun _ => hp.seq fun x => .compute_lift _
  · exact (hW.lit (by decide)).seq fun _ => hp

theorem listExpr (hW : Finds W) (sym : Str → Option ℤ) : Peg.Within W (listExpr sym) := by
  have he := hW.expression (hW.factor sym)
  refine he.seq fun x => .loop (fun xs => ?_) [x]
  exact (hW.lit (by decide)).seq fun _ => he.seq fun y => .succeed (xs ++ [y])

/-- Every name that the grammar evaluates in a text is one that `W` finds there. -/
theorem phraseParse (hW : Finds W) (sym : Str → Option ℤ) (s : Str) :
    ∀ n ∈ (phraseParse sym s).asked, n ∈ W s := by
  intro n hn
  rcases Traced.mem_asked_bind.mp hn with hn | ⟨_ | ⟨e, r⟩, -, hn⟩
  · exact (hW.listExpr sym).asks s n hn
  · simp at hn
  · simp at hn

end Finds

/-! ### What the values of the names decide -/

section Local

variable {p : (Str → Option ℤ) → Rule ℤ}

theorem local_operation (hp : Peg.Local p) (op : Char) (f : ℤ → ℤ → Except Fault ℤ) (val : ℤ) :
    Peg.Local fun sym => operation op (p sym) f val :=
  (Peg.Local.const (lit op)).seq fun _ => hp.seq fun _ => .const _

theorem local_operations (hp : Peg.Local p) (op op' : Char) (f f' : ℤ → ℤ → Except Fault ℤ)
    (val : ℤ) : Peg.Local fun sym => operations op f op' f' (p sym) val :=
  .loop (fun val => (local_operation hp op f val).choice (local_operation hp op' f' val)) val

theorem local_term (hp : Peg.Local p) : Peg.Local fun sym => term (p sym) :=
  hp.seq (local_operations hp _ _ _ _)

theorem local_expression (hp : Peg.Local p) : Peg.Local fun sym => expression (p sym) :=
  (local_term hp).seq (local_operations (local_term hp) _ _ _ _)

theorem local_value : Peg.Local value :=
  (Peg.Local.const identifier).seq fun n => .compute (.ask n fun v : Option ℤ => v.getD 0)

theorem local_factor : Peg.Local factor := by
  refine .fix fun p hp => ?_
  refine local_value.choice ((Peg.Local.const uint).choice (.choice ?_ (.choice ?_ ?_)))
  · exact (Peg.Local.const (lit '(')).seq fun _ => (local_expression hp).seq fun _ => .const _
  · exact (Peg.Local.const (lit '-')).seq fun _ => hp.seq fun _ => .const _
  · exact (Peg.Local.const (lit '+')).seq fun _ => hp

theorem local_listExpr : Peg.Local listExpr := by
  have he := local_expression local_factor
  refine he.seq fun x => .loop (fun xs => ?_) [x]
  exact (Peg.Local.const (lit ',')).seq fun _ => he.seq fun _ => .const _

/-- Parsing a text depends on the parameters it evaluates and on no others. -/
theorem local_phraseParse (s : Str) : Traced.Local fun sym => phraseParse sym s :=
  (local_listExpr s).bind fun reply => by
    cases reply <;> exact .const _

end Local

/-! ### The rules as equations -/

theorem length_dropWhile_le (f : Char → Bool) (s : Str) :
    (s.dropWhile f).length ≤ s.length := (List.dropWhile_suffix f).length_le

theorem eats_token {α : Type} {f : Str → Option (α × Str)}
    (hf : ∀ s a r, f s = some (a, r) → r.length < s.length) : Peg.Eats List.length (token f) := by
  intro s a r h
  simp only [token, Peg.read, Traced.outcome_pure, Except.ok.injEq] at h
  exact (hf _ a r h).trans_le (length_dropWhile_le isspace s)

theorem eats_lit (op : Char) : Peg.Eats List.length (lit op) := by
  refine eats_token fun s a r h => ?_
  cases s with
  | nil => simp at h
  | cons c s =>
    simp only [Option.ite_none_right_eq_some, Option.some.injEq, Prod.mk.injEq] at h
    rw [← h.2.2]
    simp

theorem eats_identifier : Peg.Eats List.length identifier := by
  refine eats_token fun s a r h => ?_
  cases s with
  | nil => simp at h
  | cons c s =>
    simp only [Option.ite_none_right_eq_some, Option.some.injEq, Prod.mk.injEq] at h
    rw [← h.2.2, List.length_cons]
    exact Nat.lt_succ_of_le (length_dropWhile_le isWord s)

theorem eats_uint : Peg.Eats List.length uint := by
  refine eats_token fun s a r h => ?_
  simp only [Option.ite_none_right_eq_some, Option.some.injEq, Prod.mk.injEq] at h
  obtain ⟨⟨hne, -⟩, -, rfl⟩ := h
  have hsplit := congrArg List.length (List.takeWhile_append_dropWhile (p := Char.isDigit) (l := s))
  rw [List.length_append] at hsplit
  have := List.length_pos_iff.mpr hne
  omega

section Operand

variable {p q : Rule ℤ} (hp : Peg.Shrinks List.length p) (op op' : Char)
  (f f' : ℤ → ℤ → Except Fault ℤ)

include hp

theorem eats_operation (val : ℤ) : Peg.Eats List.length (operation op p f val) :=
  (eats_lit op).seq fun _ => hp.seq fun _ => .compute _

theorem eats_either (val : ℤ) :
    Peg.Eats List.length ((operation op p f val).choice (operation op' p f' val)) :=
  (eats_operation hp op f val).choice (eats_operation hp op' f' val)

/-- The operations go on until neither operator follows. -/
theorem operations_eq (val : ℤ) :
    operations op f op' f' p val =
      (((operation op p f val).choice (operation op' p f' val)).seq
        (operations op f op' f' p)).choice (.succeed val) :=
  Peg.loop_eq (eats_either hp op op' f f') val

theorem shrinks_operations (val : ℤ) : Peg.Shrinks List.length (operations op f op' f' p val) :=
  .loop (fun val => (eats_either hp op op' f f' val).shrinks) val

theorem shrinks_term : Peg.Shrinks List.length (term p) :=
  hp.seq (shrinks_operations hp _ _ _ _)

theorem shrinks_expression : Peg.Shrinks List.length (expression p) :=
  (shrinks_term hp).seq (shrinks_operations (shrinks_term hp) _ _ _ _)

theorem operations_congr {s : Str} (h : ∀ r : Str, r.length ≤ s.length → p r = q r) (val : ℤ) :
    operations op f op' f' p val s = operations op f op' f' q val s := by
  have hone : ∀ (op : Char) (f : ℤ → ℤ → Except Fault ℤ) (val : ℤ) (r : Str),
      r.length ≤ s.length → operation op p f val r = operation op q f val r := by
    intro op f val r hr
    refine Peg.seq_congr rfl fun _ t ht => Peg.seq_congr (h t ?_) fun _ _ _ => rfl
    exact (eats_lit op ht).le.trans hr
  refine Peg.loop_congr (fun val => (eats_either hp op op' f f' val).shrinks) (fun val r hr => ?_) val
  exact Peg.choice_congr (hone op f val r hr) (hone op' f' val r hr)

theorem term_congr {s : Str} (h : ∀ r : Str, r.length ≤ s.length → p r = q r) :
    term p s = term q s := by
  refine Peg.seq_congr (h s le_rfl) fun x r hr => operations_congr hp _ _ _ _ (fun t ht => h t ?_) x
  exact ht.trans (hp hr)

theorem expression_congr {s : Str} (h : ∀ r : Str, r.length ≤ s.length → p r = q r) :
    expression p s = expression q s := by
  have hterm : ∀ r : Str, r.length ≤ s.length → term p r = term q r :=
    fun r hr => term_congr hp fun t ht => h t (ht.trans hr)
  refine Peg.seq_congr (hterm s le_rfl) fun x r hr => ?_
  refine operations_congr (shrinks_term hp) _ _ _ _ (fun t ht => hterm t ?_) x
  exact ht.trans (shrinks_term hp hr)

end Operand

theorem guarded_factorRule (sym : Str → Option ℤ) : Peg.Guarded (factorRule sym) where
  shrinks p hp := by
    refine Peg.Shrinks.choice ?_ (eats_uint.shrinks.choice (.choice ?_ (.choice ?_ ?_)))
    · exact eats_identifier.shrinks.seq fun n => .compute _
    · exact (eats_lit '(').shrinks.seq fun _ => (shrinks_expression hp).seq fun x =>
        (eats_lit ')').shrinks.seq fun _ => .succeed x
    · exact (eats_lit '-').shrinks.seq fun _ => hp.seq fun x => .compute _
    · exact (eats_lit '+').shrinks.seq fun _ => hp
  congr p q s hp h := by
    refine Peg.choice_congr rfl (Peg.choice_congr rfl (Peg.choice_congr ?_ (Peg.choice_congr ?_ ?_)))
    · refine Peg.seq_congr rfl fun _ r hr => Peg.seq_congr ?_ fun _ _ _ => rfl
      have hlt : r.length < s.length := eats_lit '(' hr
      exact expression_congr hp fun t ht => h t (by omega)
    · exact Peg.seq_congr rfl fun _ r hr =>
        Peg.seq_congr (h r (eats_lit '-' hr)) fun _ _ _ => rfl
    · exact Peg.seq_congr rfl fun _ r hr => h r (eats_lit '+' hr)

/-- The rule `factor` as the grammar writes it. -/
theorem factor_eq (sym : Str → Option ℤ) : factor sym = factorRule sym (factor sym) :=
  Peg.fix_eq (guarded_factorRule sym)

end Calc
end Damaris
