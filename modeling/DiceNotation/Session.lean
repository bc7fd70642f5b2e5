import DiceNotation.Reading
import DiceNotation.Table

/-! Evaluating one expression after another on the same source and under the same
limits. -/

namespace DiceNotation

/-- A table that is used again and again. -/
structure Session (σ : Type) extends Table σ where
  limits : Limits := {}
  deriving DecidableEq, Repr

variable {σ : Type} [Source σ]

namespace Session

def start (limits : Limits) (source : σ) : Session σ := { source, limits }

/-- The events of an evaluation, its outcome, and the session after it. The log is
emptied first and handed over at the end unless a fault ended the evaluation. The
source goes on from where it is, also after a fault. -/
def observe (session : Session σ) (reading : Reading) :
    List Event × Except Fault Evaluation × Session σ :=
  let (result, table) :=
    reading.tree.eval session.limits { session.toTable with log := [], events := [] }
  (table.events,
    result.map fun total => { total, log := table.log, math := reading.math },
    { session with source := table.source, log := [], events := [] })

def evaluate (session : Session σ) (reading : Reading) : Except Fault Evaluation × Session σ :=
  (session.observe reading).2

/-- The outcomes in turn; a fault ends one evaluation only. -/
def evaluateAll (session : Session σ) :
    List Reading → List (Except Fault Evaluation) × Session σ
  | [] => ([], session)
  | reading :: readings =>
    let (outcome, session) := session.evaluate reading
    let (outcomes, session) := session.evaluateAll readings
    (outcome :: outcomes, session)

end Session

/-- The outcome of one evaluation, and the source afterwards. -/
def Reading.evaluate (reading : Reading) (source : σ) (limits : Limits) :
    Except Fault Evaluation × σ :=
  let (outcome, session) := (Session.start limits source).evaluate reading
  (outcome, session.source)

/-- The outcome of a text in dice notation, and the source afterwards. -/
def evaluate (text : String) (source : σ) (limits : Limits) : Except Fault Evaluation × σ :=
  (Reading.ofText text).evaluate source limits

end DiceNotation
