import DiceNotation.Dice.Sides

/-! What an evaluation reports: the total, one record for each roll, and the
tokens that were read. -/

namespace DiceNotation

/-! ### One roll -/

/-- A roll of `count` dice of `sides` sides, with the face of each. -/
structure RollRecord where
  count : UInt64
  sides : Sides
  rolls : List UInt32
  deriving DecidableEq, Repr

namespace RollRecord

def total (r : RollRecord) : Int64 := (r.rolls.map fun face => face.toUInt64.toInt64).sum

def text (r : RollRecord) : String :=
  toString r.count.toNat ++ "d" ++ r.sides.text ++ ": [" ++
    ", ".intercalate (r.rolls.map fun face => toString face.toNat) ++ "]"

end RollRecord

/-! ### The outcome of an expression -/

/-- `math` shows the tokens that were read, `log` the rolls in the order in which
they were made. -/
structure Evaluation where
  total : Int64
  log : List RollRecord
  math : String
  deriving DecidableEq, Repr

namespace Evaluation

def logLines (e : Evaluation) : List String := e.log.map RollRecord.text

/-- One line for the total and an indented line for each roll. -/
def text (e : Evaluation) : String :=
  "\n  ".intercalate ((e.math ++ " = " ++ toString e.total.toInt) :: e.logLines)

end Evaluation

end DiceNotation
