import DiceNotation.Expr
import DiceNotation.Token

/-! The grammar of dice notation: which token lists write an expression, how deep
their brackets nest, and which tokens may be left out of them. The grammar mentions
neither groups nor steps of the reader; it is what reading is measured against. -/

namespace DiceNotation

/-! ### Levels -/

/-- The levels of the notation, the tightest first. -/
inductive Level where
  | factor | dice | product | sum
  deriving DecidableEq, Repr

/-- The level of what an operation makes, and of its left operand. -/
def Operator.level : Operator → Level
  | add | sub => .sum
  | mul | div => .product

/-- The level that the right operand of an operation must have. -/
def Level.tighter : Level → Level
  | sum => product
  | product => dice
  | dice | factor => factor

/-! ### Written expressions -/

/-- `Written l w e`: the word `w` writes `e` at level `l`. A sum is a product, or a sum,
a `+` or `-`, and a product, so that equals group to the left; products alike. Brackets
may stand around any sum. -/
inductive Expr.Written : Level → List Token → Expr → Prop
  | integer (x : Int64) : Written .factor [.integer x] (.literal x)
  | bracket {w e} (he : Written .sum w e) :
      Written .factor (.leftParen :: (w ++ [.rightParen])) e
  | ofFactor {w e} (he : Written .factor w e) : Written .dice w e
  | dice {u v c s} (hc : Written .factor u c) (hs : Written .factor v s) :
      Written .dice (u ++ .dice :: v) (.dice c s)
  | oneDie {v s} (hs : Written .factor v s) :
      Written .dice (.dice :: v) (.dice (.literal 1) s)
  | ofDice {w e} (he : Written .dice w e) : Written .product w e
  | product {u v l r t op} (hl : Written .product u l) (ht : t.operator? = some op)
      (hop : op.level = .product) (hr : Written .dice v r) :
      Written .product (u ++ t :: v) (.binary op l r)
  | ofProduct {w e} (he : Written .product w e) : Written .sum w e
  | sum {u v l r t op} (hl : Written .sum u l) (ht : t.operator? = some op)
      (hop : op.level = .sum) (hr : Written .product v r) :
      Written .sum (u ++ t :: v) (.binary op l r)

theorem Expr.Written.lift {l : Level} {w : List Token} {e : Expr} (h : Written l.tighter w e) :
    Written l w e := by
  cases l with
  | factor => exact h
  | dice => exact ofFactor h
  | product => exact ofDice h
  | sum => exact ofProduct h

theorem Expr.Written.binary {op : Operator} {u v : List Token} {t : Token} {l r : Expr}
    (hl : Written op.level u l) (ht : t.operator? = some op) (hr : Written op.level.tighter v r) :
    Written op.level (u ++ t :: v) (.binary op l r) := by
  cases op with
  | add | sub => exact sum hl ht rfl hr
  | mul | div => exact product hl ht rfl hr

namespace Token

/-! ### Operands -/

/-- An operand is due after it. -/
def AwaitsOperand : Token → Prop
  | plus | minus | star | slash | dice | leftParen => True
  | _ => False

/-- An operand ends with it. -/
def EndsOperand : Token → Prop
  | integer _ | rightParen => True
  | _ => False

/-- An operand begins with it, and nothing else does. -/
def BeginsOperand : Token → Prop
  | integer _ | leftParen => True
  | _ => False

/-- An operand that is due in front of it is missing. -/
def LacksOperand : Token → Prop
  | plus | minus | star | slash | rightParen | unknown => True
  | _ => False

theorem lacksOperand_of_operator? {t : Token} {op : Operator} (h : t.operator? = some op) :
    t.LacksOperand := by
  cases t <;> trivial

/-! ### Nesting -/

/-- The number of open brackets after a token, `n` being open before it. A closing
bracket without a partner changes nothing. -/
def openAfter (n : Nat) : Token → Nat
  | leftParen => n + 1
  | rightParen => n - 1
  | _ => n

def opened (n : Nat) (ts : List Token) : Nat := ts.foldl openAfter n

/-- The greatest number of brackets open at any point, `n` being open at the start. -/
def peak (n : Nat) : List Token → Nat
  | [] => n
  | t :: ts => max n (peak (openAfter n t) ts)

def nesting (ts : List Token) : Nat := peak 0 ts

@[simp] theorem opened_nil (n : Nat) : opened n [] = n := rfl

@[simp] theorem opened_cons (n : Nat) (t : Token) (ts : List Token) :
    opened n (t :: ts) = opened (openAfter n t) ts := rfl

@[simp] theorem opened_append (n : Nat) (ts us : List Token) :
    opened n (ts ++ us) = opened (opened n ts) us := List.foldl_append

@[simp] theorem peak_nil (n : Nat) : peak n [] = n := rfl

@[simp] theorem peak_cons (n : Nat) (t : Token) (ts : List Token) :
    peak n (t :: ts) = max n (peak (openAfter n t) ts) := rfl

theorem le_peak (n : Nat) (ts : List Token) : n ≤ peak n ts := by
  cases ts with
  | nil => exact Nat.le_refl n
  | cons t ts => exact Nat.le_max_left _ _

theorem opened_le_peak (n : Nat) (ts : List Token) : opened n ts ≤ peak n ts := by
  induction ts generalizing n with
  | nil => exact Nat.le_refl n
  | cons t ts ih => exact Nat.le_trans (ih _) (Nat.le_max_right _ _)

theorem peak_append (n : Nat) (ts us : List Token) :
    peak n (ts ++ us) = max (peak n ts) (peak (opened n ts) us) := by
  induction ts generalizing n with
  | nil =>
    have := le_peak n us
    simp only [List.nil_append, peak_nil, opened_nil]
    omega
  | cons t ts ih =>
    simp only [List.cons_append, peak_cons, opened_cons, ih]
    omega

/-- Inside a pair of brackets one more is open. -/
theorem peak_bracket_le {n limit : Nat} {ts : List Token}
    (h : peak n (leftParen :: (ts ++ [rightParen])) ≤ limit) :
    n < limit ∧ peak (n + 1) ts ≤ limit := by
  have := le_peak (n + 1) ts
  simp only [peak_cons, openAfter, peak_append] at h
  omega

/-- Only an opening bracket takes the nesting deeper. -/
theorem peak_of_not_mem {ts : List Token} (h : leftParen ∉ ts) (n : Nat) : peak n ts = n := by
  induction ts generalizing n with
  | nil => rfl
  | cons t ts ih =>
    rw [List.mem_cons, not_or] at h
    have hle : openAfter n t ≤ n := by
      cases t <;> simp only [openAfter] <;> first | omega | exact absurd rfl h.1
    simp only [peak_cons, ih h.2]
    omega

theorem nesting_append_of_not_mem {us : List Token} (h : leftParen ∉ us) (ts : List Token) :
    nesting (ts ++ us) = nesting ts := by
  have := opened_le_peak 0 ts
  rw [nesting, nesting, peak_append, peak_of_not_mem h]
  omega

theorem openAfter_le_of_le {m n : Nat} (h : m ≤ n) (t : Token) :
    openAfter m t ≤ openAfter n t := by
  cases t <;> simp only [openAfter] <;> omega

theorem openAfter_operator {t : Token} {op : Operator} (h : t.operator? = some op) (n : Nat) :
    openAfter n t = n := by
  cases t <;> first | rfl | contradiction

end Token

/-- A written word closes the brackets that it opens. -/
theorem Expr.Written.opened_eq {l : Level} {w : List Token} {e : Expr} (h : Written l w e)
    (n : Nat) : Token.opened n w = n := by
  induction h generalizing n with
  | integer x => rfl
  | bracket he ih => simp [ih, Token.openAfter]
  | ofFactor he ih | ofDice he ih | ofProduct he ih => exact ih n
  | dice hc hs ihc ihs => simp [ihc, ihs, Token.openAfter]
  | oneDie hs ih => simp [ih, Token.openAfter]
  | product hl ht hop hr ihl ihr | sum hl ht hop hr ihl ihr =>
    simp [ihl, ihr, Token.openAfter_operator ht]

/-! ### Tokens left out -/

/-- `Abridged w c`: `c` is `w` without some of its `0`s, of its `1`s that stand before
a `d`, and of its closing brackets. -/
inductive Token.Abridged : List Token → List Token → Prop
  | nil : Abridged [] []
  | keep {w c} (t : Token) (h : Abridged w c) : Abridged (t :: w) (t :: c)
  | zero {w c} (h : Abridged w c) : Abridged (.integer 0 :: w) c
  | one {w c} (h : Abridged (.dice :: w) c) : Abridged (.integer 1 :: .dice :: w) c
  | close {w c} (h : Abridged w c) : Abridged (.rightParen :: w) c

namespace Token.Abridged

variable {w w' c c' : List Token}

theorem refl (w : List Token) : Abridged w w := by
  induction w with
  | nil => exact nil
  | cons t w ih => exact keep t ih

theorem append (h : Abridged w c) (h' : Abridged w' c') : Abridged (w ++ w') (c ++ c') := by
  induction h with
  | nil => exact h'
  | keep t h ih => exact keep t ih
  | zero h ih => exact zero ih
  | one h ih => exact one ih
  | close h ih => exact close ih

end Token.Abridged

end DiceNotation
