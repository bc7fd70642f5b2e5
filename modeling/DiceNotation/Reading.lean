import DiceNotation.Expr.Reader
import DiceNotation.Token.Scan

/-! A text as it is evaluated: the expression, and the tokens it was read from. -/

namespace DiceNotation

structure Reading where
  tree : Expr
  math : String
  deriving DecidableEq, Repr

namespace Reading

def ofTokens (ts : List Token) : Reading := { tree := Expr.ofTokens ts, math := Token.normalize ts }

def ofText (text : String) : Reading := ofTokens (Token.tokenize text)

end Reading

end DiceNotation
