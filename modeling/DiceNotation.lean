import DiceNotation.Dice.Script
import DiceNotation.Dice.Stepping
import DiceNotation.Dice.Words
import DiceNotation.Main
import DiceNotation.Proofs.Reader.Grammar
import DiceNotation.Proofs.Reader.Steps
import DiceNotation.Trace
import DiceNotation.Proofs.Reader.Soundness
import DiceNotation.Proofs.Reader.Completeness
import DiceNotation.Proofs.Source.Honest
import DiceNotation.Proofs.Evaluation.Explained
import DiceNotation.Proofs.Evaluation.Replay
import DiceNotation.Proofs.Evaluation.Settled
import DiceNotation.Proofs.Token.Lexeme
import DiceNotation.Proofs.Token.RoundTrip
import DiceNotation.Proofs.Evaluation.Faulted
import DiceNotation.Proofs.Evaluation.Scripted
import DiceNotation.Proofs.Evaluation.Sound
import DiceNotation.Proofs.Session.Reuse
import DiceNotation.Proofs.Evaluation.Bounded
import DiceNotation.Proofs.Reader.Rendering
import DiceNotation.Proofs.Evaluation.Certain
import DiceNotation.Proofs.Prompt.Dialogue
import DiceNotation.Proofs.Source.Accepted
import DiceNotation.Proofs.Trace.Events
import DiceNotation.Proofs.Reader.Leftover
import DiceNotation.Proofs.Reader.FillingIn
import DiceNotation.Proofs.Reader.Bracketing
import DiceNotation.Proofs.Token.Insertion
import DiceNotation.Proofs.Source.Batch
import DiceNotation.Proofs.Source.Fair
import DiceNotation.Proofs.Evaluation.Folding
import DiceNotation.Proofs.Evaluation.Tightened
import DiceNotation.Proofs.Evaluation.Overflow
import DiceNotation.Proofs.Evaluation.Monotone
import DiceNotation.Proofs.Text.Delimited
import DiceNotation.Proofs.Text.Report
import DiceNotation.Proofs.Text.Tree
