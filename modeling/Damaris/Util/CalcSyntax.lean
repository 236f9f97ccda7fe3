import Mathlib.Tactic
import Damaris.Util.Calc

/-!
# What a dimension descriptor means

The language of descriptors, apart from any parser: a text is cut into tokens, the
tokens derive expressions by the usual rules of precedence, and an expression has a value in
the integers. White space parts tokens and stands for nothing.
-/
namespace Damaris.Calc

inductive Token
  | number (n : ℕ)
  | name (n : Str)
  | sym (c : Char)
  deriving DecidableEq

/-- Numbers and names are as long as they can be; every other character stands for itself. -/
def lex : ℕ → Str → List Token
  | 0, _ => []
  | _, [] => []
  | fuel + 1, c :: s =>
    if isspace c then lex fuel s
    else if isWordStart c then .name (c :: s.takeWhile isWord) :: lex fuel (s.dropWhile isWord)
    else if c.isDigit then
      .number (decimal (c :: s.takeWhile Char.isDigit)) :: lex fuel (s.dropWhile Char.isDigit)
    else .sym c :: lex fuel s

def tokens (s : Str) : List Token := lex s.length s

inductive Operator
  | add
  | sub
  | mul
  | div
  deriving DecidableEq

inductive Expr
  | number (n : ℕ)
  | name (n : Str)
  | neg (e : Expr)
  | binary (op : Operator) (a b : Expr)
  deriving DecidableEq

def Operator.symbol : Operator → Char
  | .add => '+'
  | .sub => '-'
  | .mul => '*'
  | .div => '/'

inductive Level
  | factor
  | term
  | expression
  deriving DecidableEq

/-- What an operator of this level takes on its right. -/
def Level.below : Level → Level
  | .factor => .factor
  | .term => .factor
  | .expression => .term

def Operator.level : Operator → Level
  | .add => .expression
  | .sub => .expression
  | .mul => .term
  | .div => .term

/-- The derivations of the expressions. Operators of one precedence associate to the left. -/
inductive Derives : Level → Expr → List Token → Prop
  | number {n : ℕ} (h : n < 2 ^ 32) : Derives .factor (.number n) [.number n]
  | name (n : Str) : Derives .factor (.name n) [.name n]
  | parens {e : Expr} {ts : List Token} (h : Derives .expression e ts) :
      Derives .factor e (.sym '(' :: (ts ++ [.sym ')']))
  | neg {e : Expr} {ts : List Token} (h : Derives .factor e ts) :
      Derives .factor (.neg e) (.sym '-' :: ts)
  | plus {e : Expr} {ts : List Token} (h : Derives .factor e ts) : Derives .factor e (.sym '+' :: ts)
  | lift (L : Level) {e : Expr} {ts : List Token} (h : Derives L.below e ts) : Derives L e ts
  | binary (op : Operator) {a b : Expr} {ts us : List Token} (ha : Derives op.level a ts)
      (hb : Derives op.level.below b us) :
      Derives op.level (.binary op a b) (ts ++ .sym op.symbol :: us)

/-- One or more expressions with commas between them. -/
inductive DerivesList : List Expr → List Token → Prop
  | single {e : Expr} {ts : List Token} (h : Derives .expression e ts) : DerivesList [e] ts
  | snoc {es : List Expr} {e : Expr} {ts us : List Token} (hs : DerivesList es ts)
      (h : Derives .expression e us) : DerivesList (es ++ [e]) (ts ++ .sym ',' :: us)

/-- The text is a descriptor of these expressions. -/
def Descriptor (es : List Expr) (s : Str) : Prop := DerivesList es (tokens s)

def Operator.value : Operator → ℤ → ℤ → ℤ
  | .add, x, y => x + y
  | .sub, x, y => x - y
  | .mul, x, y => x * y
  | .div, x, y => x.tdiv y

/-- An expression's value in the integers; a name that stands for nothing is 0. -/
def Expr.value (sym : Str → Option ℤ) : Expr → ℤ
  | .number n => n
  | .name n => (sym n).getD 0
  | .neg e => - e.value sym
  | .binary op a b => op.value (a.value sym) (b.value sym)

/-- No intermediate result leaves `int`, and no divisor is zero. -/
def Expr.Defined (sym : Str → Option ℤ) : Expr → Prop
  | .number n => (n : ℤ) < 2 ^ 31
  | .name _ => True
  | .neg e => e.Defined sym ∧ Data.toInt (- e.value sym) = - e.value sym
  | .binary op a b => a.Defined sym ∧ b.Defined sym ∧ (op = .div → b.value sym ≠ 0) ∧
      Data.toInt (op.value (a.value sym) (b.value sym)) = op.value (a.value sym) (b.value sym)

instance Expr.decidableDefined (sym : Str → Option ℤ) : (e : Expr) → Decidable (e.Defined sym)
  | .number n => inferInstanceAs (Decidable ((n : ℤ) < 2 ^ 31))
  | .name _ => inferInstanceAs (Decidable True)
  | .neg e =>
    have := e.decidableDefined sym
    inferInstanceAs (Decidable (_ ∧ _))
  | .binary _ a b =>
    have := a.decidableDefined sym
    have := b.decidableDefined sym
    inferInstanceAs (Decidable (_ ∧ _ ∧ (_ → _) ∧ _))

/-! ### What the code computes -/

/-- The arithmetic of the grammar's actions. -/
def Operator.apply : Operator → ℤ → ℤ → Except Fault ℤ
  | .add, x, y => fit (x + y)
  | .sub, x, y => fit (x - y)
  | .mul, x, y => fit (x * y)
  | .div, x, y => divide x y

/-- What the grammar's actions make of an expression, from left to right. -/
def Expr.eval (sym : Str → Option ℤ) : Expr → Except Fault ℤ
  | .number n => .ok (Data.toInt n)
  | .name n => .ok ((sym n).getD 0)
  | .neg e => e.eval sym >>= fun x => fit (-x)
  | .binary op a b => a.eval sym >>= fun x => b.eval sym >>= fun y => op.apply x y

/-- An expression that is defined is computed right. -/
theorem Expr.eval_of_defined {sym : Str → Option ℤ} {e : Expr} (h : e.Defined sym) :
    e.eval sym = .ok (e.value sym) := by
  induction e with
  | number n =>
    have hn : (n : ℤ) < 2 ^ 31 := h
    have hfit : Data.toInt n = n := Int.bmod_eq_of_le (by omega) (by omega)
    rw [eval, hfit, value]
  | name n => rfl
  | neg e ih =>
    obtain ⟨he, hfit⟩ := h
    rw [eval, ih he]
    exact if_pos hfit
  | binary op a b iha ihb =>
    obtain ⟨ha, hb, hdiv, hfit⟩ := h
    rw [eval, iha ha, ihb hb]
    show op.apply (a.value sym) (b.value sym) = .ok (op.value (a.value sym) (b.value sym))
    cases op with
    | add => exact if_pos hfit
    | sub => exact if_pos hfit
    | mul => exact if_pos hfit
    | div => exact (if_neg (hdiv rfl)).trans (if_pos hfit)

/-- Reading the tokens comes to a division whose divisor is zero. -/
inductive ZeroDivisor (sym : Str → Option ℤ) : Level → List Token → Prop
  | here {a b : Expr} {ts us : List Token} (ha : Derives .term a ts) (hb : Derives .factor b us)
      (h : b.eval sym = .ok 0) (rest : List Token) :
      ZeroDivisor sym .term (ts ++ .sym '/' :: (us ++ rest))
  | parens {ts : List Token} (h : ZeroDivisor sym .expression ts) :
      ZeroDivisor sym .factor (.sym '(' :: ts)
  | neg {ts : List Token} (h : ZeroDivisor sym .factor ts) : ZeroDivisor sym .factor (.sym '-' :: ts)
  | plus {ts : List Token} (h : ZeroDivisor sym .factor ts) : ZeroDivisor sym .factor (.sym '+' :: ts)
  | lift (L : Level) {ts : List Token} (h : ZeroDivisor sym L.below ts) : ZeroDivisor sym L ts
  | binary (op : Operator) {a : Expr} {ts us : List Token} (ha : Derives op.level a ts)
      (h : ZeroDivisor sym op.level.below us) :
      ZeroDivisor sym op.level (ts ++ .sym op.symbol :: us)

/-! ### Tokens -/

theorem lex_stable {n m : ℕ} {s : Str} (hn : s.length ≤ n) (hm : s.length ≤ m) :
    lex n s = lex m s := by
  induction n generalizing m s with
  | zero =>
    obtain rfl := List.length_eq_zero_iff.mp (Nat.le_zero.mp hn)
    cases m <;> rfl
  | succ n ih =>
    cases s with
    | nil => cases m <;> rfl
    | cons c s =>
      obtain ⟨m, rfl⟩ : ∃ k, m = k + 1 := ⟨m - 1, by simp at hm; omega⟩
      have hs : s.length ≤ n ∧ s.length ≤ m := by
        simp only [List.length_cons] at hn hm
        omega
      have hrest : ∀ f, lex n (s.dropWhile f) = lex m (s.dropWhile f) := fun f =>
        ih ((length_dropWhile_le f s).trans hs.1) ((length_dropWhile_le f s).trans hs.2)
      rw [lex, lex, hrest, hrest, ih hs.1 hs.2]

@[simp] theorem tokens_nil : tokens [] = [] := rfl

theorem tokens_cons (c : Char) (s : Str) : tokens (c :: s) =
    if isspace c then tokens s
    else if isWordStart c then .name (c :: s.takeWhile isWord) :: tokens (s.dropWhile isWord)
    else if c.isDigit then
      .number (decimal (c :: s.takeWhile Char.isDigit)) :: tokens (s.dropWhile Char.isDigit)
    else .sym c :: tokens s := by
  have hrest : ∀ f, lex s.length (s.dropWhile f) = tokens (s.dropWhile f) := fun f =>
    lex_stable (length_dropWhile_le f s) le_rfl
  rw [tokens, List.length_cons, lex, hrest, hrest]
  rfl

theorem tokens_dropWhile_isspace (s : Str) : tokens (s.dropWhile isspace) = tokens s := by
  induction s with
  | nil => rfl
  | cons c s ih =>
    by_cases hc : isspace c
    · rw [List.dropWhile_cons_of_pos hc, ih, tokens_cons, if_pos hc]
    · rw [List.dropWhile_cons_of_neg hc]

end Damaris.Calc
