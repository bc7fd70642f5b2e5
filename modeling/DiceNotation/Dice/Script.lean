import DiceNotation.Dice.Source

/-! A script of faces, played once or over and over. Every die takes one face,
whether or not the face fits the die. -/

namespace DiceNotation

/-- The faces that come next, and those that follow whenever these run out. -/
structure Script where
  upcoming : List UInt32
  again : List UInt32 := []
  deriving DecidableEq, Repr

namespace Script

def once (faces : List UInt32) : Script := ⟨faces, []⟩

def forever (faces : List UInt32) : Script := ⟨faces, faces⟩

def next? : Script → Option (UInt32 × Script)
  | ⟨face :: faces, again⟩ => some (face, ⟨faces, again⟩)
  | ⟨[], face :: faces⟩ => some (face, ⟨faces, face :: faces⟩)
  | ⟨[], []⟩ => none

def roll (sides : Sides) : Draw Script UInt32 := fun script =>
  match script.next? with
  | none => (.error .exhausted, script)
  | some (face, rest) =>
    if sides.Shows face then (.ok face, rest) else (.error (.outOfRange face sides), rest)

instance : Source Script := { roll }

end Script

end DiceNotation
