import DiceNotation.Saturating

/-! The four binary operators of an expression. -/

namespace DiceNotation

inductive Operator where
  | add | sub | mul | div
  deriving DecidableEq, Repr

namespace Operator

def symbol : Operator → String
  | add => "+"
  | sub => "-"
  | mul => "*"
  | div => "/"

def apply : Operator → Int64 → Int64 → Int64
  | add => Saturating.add
  | sub => Saturating.sub
  | mul => Saturating.mul
  | div => Saturating.div

end Operator

end DiceNotation
