import DiceNotation.Operator

/-! Expressions: literals, binary operations, and rolls whose number of dice and
number of sides are expressions themselves. -/

namespace DiceNotation

inductive Expr where
  | literal (value : Int64)
  | binary (op : Operator) (left right : Expr)
  | dice (count sides : Expr)
  deriving DecidableEq, Repr

namespace Expr

def isDice : Expr → Bool
  | dice _ _ => true
  | _ => false

/-- Brackets around an operand that would otherwise run into the `d` beside it. -/
def bracket (enclose : Bool) (text : String) : String :=
  if enclose then "(" ++ text ++ ")" else text

/-- Every operation is bracketed, so that the text shows the grouping. -/
def text : Expr → String
  | literal x => toString x.toInt
  | binary op l r => "(" ++ l.text ++ " " ++ op.symbol ++ " " ++ r.text ++ ")"
  | dice c s => bracket c.isDice c.text ++ "d" ++ bracket s.isDice s.text

end Expr

end DiceNotation
