import DiceNotation.Dice.Source

/-! A source that counts upward by a fixed stride and wraps around the sides of each
die. The count is a word and wraps around too, so that the source never fails; where
overflow is checked for, a computation breaks off at the first overflow instead. -/

namespace DiceNotation

/-- The first die with enough sides shows `current`. -/
structure Stepping where
  current : UInt32
  stride : UInt32
  deriving DecidableEq, Repr

namespace Stepping

/-- Faces count from one and remainders from zero. -/
def face (s : Stepping) (sides : Sides) : UInt32 := (s.current - 1) % sides.toUInt32 + 1

def advance (s : Stepping) : Stepping := { s with current := s.current + s.stride }

/-- The next die takes the count below zero or past the greatest word. -/
def Overflows (s : Stepping) : Prop :=
  s.current = 0 ∨ UInt32.size ≤ s.current.toNat + s.stride.toNat

instance : DecidablePred Overflows := fun _ => inferInstanceAs (Decidable (_ ∨ _))

def roll (sides : Sides) : Draw Stepping UInt32 := fun s => (.ok (s.face sides), s.advance)

instance : Source Stepping := { roll }

end Stepping

end DiceNotation
