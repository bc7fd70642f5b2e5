import DiceNotation.Session

/-! Evaluating a text in view of an observer. -/

namespace DiceNotation

/-- The events of an evaluation in order, with its outcome and the source afterwards.
A fault ends the evaluation without an event of its own. -/
def trace {σ : Type} [Source σ] (text : String) (source : σ) (limits : Limits) :
    List Event × Except Fault Evaluation × σ :=
  let reading := Reading.ofText text
  let (rolled, outcome, session) := (Session.start limits source).observe reading
  let closing : List Event := match outcome with
    | .ok E => [.evaluated E.total E.log.length]
    | .error _ => []
  (.began text limits :: .parsed reading.math reading.tree :: (rolled ++ closing), outcome,
    session.source)

end DiceNotation
