import DiceNotation.Expr
import DiceNotation.Token

/-! Reading tokens as an expression, one token at a time. `d` binds tighter than
`*` and `/`, these tighter than `+` and `-`, and equals group to the left.

No token list is refused. A missing operand is the literal `0`; a `d` without a
count rolls one die; a token that fits nowhere in the innermost group closes that
group and is offered to the one around it; groups left open are closed at the
end; and reading stops at the first token that no group takes. -/

namespace DiceNotation.Expr

/-- The greatest number of groups open at once. -/
def maxDepth : Nat := 64

/-! ### Groups -/

/-- What is left pending in a group before its next operand: a sum that waits for
a term, within it a product that waits for a factor, and within that a count that
waits for the sides of its dice. -/
structure Group where
  sum : Option (Expr × Operator) := none
  product : Option (Expr × Operator) := none
  count : Option Expr := none
  deriving DecidableEq, Repr

namespace Group

/-- The operation that was pending, now with its right operand. -/
def complete (pending : Option (Expr × Operator)) (right : Expr) : Expr :=
  match pending with
  | none => right
  | some (left, op) => .binary op left right

def factor (g : Group) (operand : Expr) : Expr :=
  match g.count with
  | none => operand
  | some count => .dice count operand

def term (g : Group) (operand : Expr) : Expr := complete g.product (g.factor operand)

/-- The expression of the group when it ends with this operand. -/
def close (g : Group) (operand : Expr) : Expr := complete g.sum (g.term operand)

def awaitTerm (g : Group) (operand : Expr) (op : Operator) : Group :=
  { sum := some (g.close operand, op) }

def awaitFactor (g : Group) (operand : Expr) (op : Operator) : Group :=
  { sum := g.sum, product := some (g.term operand, op) }

/-- Dice take one `d`: sides are never followed by another. -/
def awaitSides? (g : Group) (operand : Expr) : Option Group :=
  match g.count with
  | none => some { g with count := some operand }
  | some _ => none

/-- The group after an operand and a token that asks for another one. -/
def extend? (g : Group) (operand : Expr) : Token → Option Group
  | .plus => some (g.awaitTerm operand .add)
  | .minus => some (g.awaitTerm operand .sub)
  | .star => some (g.awaitFactor operand .mul)
  | .slash => some (g.awaitFactor operand .div)
  | .dice => g.awaitSides? operand
  | _ => none

end Group

/-! ### The reader -/

/-- The innermost group, those around it from the inside out, and the operand just
read; `none` when an operand is due. -/
structure Reader where
  group : Group := {}
  outer : List Group := []
  operand : Option Expr := none
  deriving DecidableEq, Repr

namespace Reader

/-- The innermost group that takes the token after an operand; all within it end. -/
def follow? (group : Group) (operand : Expr) (token : Token) : List Group → Option Reader
  | [] => (group.extend? operand token).map fun g => { group := g }
  | next :: rest =>
    match group.extend? operand token with
    | some g => some { group := g, outer := next :: rest }
    | none =>
      if token = .rightParen then
        some { group := next, outer := rest, operand := some (group.close operand) }
      else follow? next (group.close operand) token rest

/-- One token, or `none` where reading stops in front of it. A group is opened only
while fewer than `limit` are open. -/
def step? (limit : Nat) (r : Reader) (token : Token) : Option Reader :=
  match r.operand with
  | some operand => follow? r.group operand token r.outer
  | none =>
    match token with
    | .integer x => some { r with operand := some (.literal x) }
    | .leftParen =>
      if r.outer.length < limit then some { outer := r.group :: r.outer } else none
    | .dice =>
      match r.group.awaitSides? (.literal 1) with
      | some g => some { r with group := g }
      | none => follow? r.group (.literal 0) .dice r.outer
    | .rightParen | .plus | .minus | .star | .slash | .unknown =>
      follow? r.group (.literal 0) token r.outer

/-- Closes all groups. -/
def finish (r : Reader) : Expr :=
  r.outer.foldl (fun operand g => g.close operand) (r.group.close (r.operand.getD (.literal 0)))

/-- The expression read and the tokens left over. -/
def run (limit : Nat) (r : Reader) : List Token → Expr × List Token
  | [] => (r.finish, [])
  | t :: ts =>
    match r.step? limit t with
    | some next => next.run limit ts
    | none => (r.finish, t :: ts)

end Reader

/-- Reading with at most `limit` groups open at once. -/
def readWithin (limit : Nat) (ts : List Token) : Expr × List Token := Reader.run limit {} ts

def read (ts : List Token) : Expr × List Token := readWithin maxDepth ts

def ofTokens (ts : List Token) : Expr := (read ts).1

end DiceNotation.Expr
