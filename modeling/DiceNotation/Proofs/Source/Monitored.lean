import DiceNotation.Dice.Source

/-! Sources under observation. A monitored source answers as the source behind it
does, and notes every request, whether or not it is met. -/

namespace DiceNotation

/-- What a source can be asked for. -/
inductive Request where
  | die (sides : Sides)
  | batch (count : Nat) (sides : Sides)
  deriving DecidableEq, Repr

/-- A source with the requests that were made of it, the earliest first. -/
structure Monitored (σ : Type) where
  source : σ
  requests : List Request := []
  deriving DecidableEq, Repr

namespace Monitored

variable {σ α : Type}

/-- The draw on the source behind the monitor. -/
def ask (request : Request) (draw : Draw σ α) : Draw (Monitored σ) α := fun m =>
  let (result, source) := draw m.source
  (result, { source, requests := m.requests ++ [request] })

instance [Source σ] : Source (Monitored σ) where
  roll sides := ask (.die sides) (Source.roll sides)
  rollMany count sides := ask (.batch count sides) (Source.rollMany count sides)

theorem ask_eq {request : Request} {draw : Draw σ α} {s t : σ} {result : Except Fault α}
    (h : draw s = (result, t)) (before : List Request) :
    ask request draw { source := s, requests := before } =
      (result, { source := t, requests := before ++ [request] }) := by
  simp only [ask, h]

theorem rollMany_eq [Source σ] {count : Nat} {sides : Sides} {s t : σ}
    {result : Except Fault (List UInt32)} (h : Source.rollMany count sides s = (result, t))
    (before : List Request) :
    Source.rollMany count sides (Monitored.mk s before) =
      (result, { source := t, requests := before ++ [.batch count sides] }) :=
  ask_eq h before

end Monitored

end DiceNotation
