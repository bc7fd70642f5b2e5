import DiceNotation.Dice.Source
import DiceNotation.Event

/-! The value of an expression on a source of faces. Operands are evaluated from
left to right, the count of a roll before its sides, and every completed roll is
shown to the observer and recorded. -/

namespace DiceNotation

/-- The source in use, the rolls made so far, and the events put out so far. -/
structure Table (σ : Type) where
  source : σ
  log : List RollRecord := []
  events : List Event := []
  deriving DecidableEq, Repr

variable {σ : Type}

namespace Table

def emit (event : Event) (table : Table σ) : Table σ :=
  { table with events := table.events ++ [event] }

def push (record : RollRecord) (table : Table σ) : Table σ :=
  { table with log := table.log ++ [record] }

/-- Rolls the dice, shows and records them, unless the source fails. -/
def roll [Source σ] (count : UInt64) (sides : Sides) : Draw (Table σ) Int64 := fun table =>
  match Source.rollMany count.toNat sides table.source with
  | (.ok rolls, source) =>
    let record : RollRecord := { count, sides, rolls }
    (.ok record.total, push record (emit (.rolled record) { table with source }))
  | (.error fault, source) => (.error fault, { table with source })

end Table

def Expr.eval [Source σ] (limits : Limits) : Expr → Draw (Table σ) Int64
  | .literal x => pure x
  | .binary op left right => do
    let a ← left.eval limits
    let b ← right.eval limits
    pure (op.apply a b)
  | .dice count sides => do
    let n ← count.eval limits
    let m ← sides.eval limits
    Table.roll (limits.clampCount n) (limits.clampSides m)

end DiceNotation
