/-! Signed 64-bit arithmetic that stops at the end of the range which the exact
result lies beyond. Division truncates toward zero, and a zero divisor gives
zero. Overflow is tested on the words, so no wider integer is formed. -/

namespace DiceNotation.Saturating

/-- The lower or the upper end of the range. -/
def bound (negative : Bool) : Int64 := if negative then Int64.minValue else Int64.maxValue

/-- Summands overflow only on the side they share. -/
def add (a b : Int64) : Int64 :=
  if a.toBitVec.saddOverflow b.toBitVec then bound (a < 0) else a + b

/-- A difference overflows only on the side of the minuend. -/
def sub (a b : Int64) : Int64 :=
  if a.toBitVec.ssubOverflow b.toBitVec then bound (a < 0) else a - b

def mul (a b : Int64) : Int64 :=
  if a.toBitVec.smulOverflow b.toBitVec then bound ((a < 0) != (b < 0)) else a * b

/-- The least value divided by `-1` is the only quotient beyond the range. -/
def div (a b : Int64) : Int64 :=
  if b = 0 then 0
  else if a = Int64.minValue ∧ b = -1 then Int64.maxValue
  else a / b

end DiceNotation.Saturating
