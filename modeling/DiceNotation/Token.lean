import DiceNotation.Operator

/-! The tokens of dice notation and the text that shows a list of them. -/

namespace DiceNotation

/-- `unknown` stands for text outside the notation and fits nowhere. -/
inductive Token where
  | integer (value : Int64)
  | dice
  | leftParen | rightParen
  | plus | minus | star | slash
  | unknown
  deriving DecidableEq, Repr

namespace Token

def text : Token → String
  | integer x => toString x.toInt
  | dice => "d"
  | leftParen => "("
  | rightParen => ")"
  | plus => "+"
  | minus => "-"
  | star => "*"
  | slash => "/"
  | unknown => "<error>"

def operator? : Token → Option Operator
  | plus => some .add
  | minus => some .sub
  | star => some .mul
  | slash => some .div
  | _ => none

/-- The tokens in order, one blank between neighbours. -/
def normalize (ts : List Token) : String := " ".intercalate (ts.map text)

end Token

end DiceNotation
