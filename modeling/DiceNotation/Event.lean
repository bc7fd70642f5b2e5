import DiceNotation.Evaluation
import DiceNotation.Expr
import DiceNotation.Limits

/-! The events that tell an observer how a text is evaluated: that it began, how it
was read, each roll that was completed, and the total unless a fault ended the
evaluation. -/

namespace DiceNotation

/-! ### What an observer sees -/

namespace Event

/-- Events of a finer level are shown on request only. -/
inductive Level where
  | debug | trace
  deriving DecidableEq, Repr

def Level.text : Level → String
  | debug => "DEBUG"
  | trace => "TRACE"

/-- A span is entered by its name; other events are put out by a part of the program. -/
inductive Origin where
  | span (name : String)
  | target (path : String)
  deriving DecidableEq, Repr

/-- The texts that an event shows, by name. -/
structure Entry where
  origin : Origin
  level : Level
  fields : List (String × String)
  deriving DecidableEq, Repr

end Event

/-! ### Events -/

inductive Event where
  | began (text : String) (limits : Limits)
  | parsed (math : String) (tree : Expr)
  | rolled (record : RollRecord)
  | evaluated (total : Int64) (rolls : Nat)
  deriving DecidableEq, Repr

def Event.entry : Event → Event.Entry
  | began text limits =>
    { origin := .span "evaluate_dice_with"
      level := .debug
      fields := [("expression", text), ("limits", limits.text)] }
  | parsed math tree =>
    { origin := .target "dice_eval"
      level := .debug
      fields := [("message", "parsed"), ("math", math), ("tree", tree.text)] }
  | rolled record =>
    { origin := .target "dice_eval::roll::ctx"
      level := .trace
      fields := [("message", "rolled dice"), ("roll", record.text)] }
  | evaluated total rolls =>
    { origin := .target "dice_eval"
      level := .debug
      fields := [("message", "evaluated"), ("total", toString total.toInt),
        ("rolls", toString rolls)] }

end DiceNotation
