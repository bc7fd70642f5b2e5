import DiceNotation.Session

/-! An interactive prompt: every line of the input is evaluated as dice notation
and answered, all on one source. Input is bytes; a line that is not UTF-8 ends the
dialogue with an error. -/

namespace DiceNotation.Prompt

/-! ### Lines -/

def newline : UInt8 := 10

def carriageReturn : UInt8 := 13

/-- One carriage return at the end of a line belongs to the line break. -/
def dropReturn (line : List UInt8) : List UInt8 :=
  if line.getLast? = some carriageReturn then line.dropLast else line

/-- The pieces between newlines as lines: what follows the last newline is a line
only if it is not empty, and ends in no line break. -/
def ofPieces : List (List UInt8) → List (List UInt8)
  | [] => []
  | [rest] => if rest.isEmpty then [] else [rest]
  | piece :: pieces => dropReturn piece :: ofPieces pieces

def lines (input : List UInt8) : List (List UInt8) := ofPieces (input.splitOn newline)

def decode? (line : List UInt8) : Option String := String.fromUTF8? ⟨line.toArray⟩

/-! ### The dialogue -/

def sign : String := "> "

/-- What a dialogue writes, and its exit code. -/
structure Transcript where
  output : String
  errors : String := ""
  code : UInt32 := 0
  deriving DecidableEq, Repr

namespace Transcript

/-- The end of the input. -/
def farewell : Transcript := { output := "\n" }

/-- The end at a line that cannot be read. -/
def undecodable : Transcript where
  output := ""
  errors := "Error: Error \x7b kind: InvalidData, message: \"stream did not contain valid UTF-8\" \x7d\n"
  code := 1

/-- The answer to one line, without the sign that asks for the next one. -/
def ofOutcome : Except Fault Evaluation → Transcript
  | .ok evaluation => { output := evaluation.text ++ "\n" }
  | .error fault => { output := "", errors := "Error: " ++ fault.message ++ "\n" }

/-- The answer to a line and then the rest of the dialogue. -/
def followedBy (answer rest : Transcript) : Transcript where
  output := answer.output ++ sign ++ rest.output
  errors := answer.errors ++ rest.errors
  code := rest.code

end Transcript

variable {σ : Type} [Source σ]

def answer (source : σ) (text : String) : Transcript × σ :=
  let (outcome, source) := evaluate text source {}
  (.ofOutcome outcome, source)

/-- What is written when the next line has come, or the end of the input, and the
source to go on with unless the dialogue ends. -/
def respond (source : σ) : Option (List UInt8) → Transcript × Option σ
  | none => (.farewell, none)
  | some line =>
    match decode? line with
    | none => (.undecodable, none)
    | some text =>
      let (reply, source) := answer source text
      (reply, some source)

/-- The dialogue after the first sign. -/
def converse (source : σ) : List (List UInt8) → Transcript
  | [] => (respond source none).1
  | line :: lines =>
    match respond source (some line) with
    | (reply, none) => reply
    | (reply, some source) => reply.followedBy (converse source lines)

def transcript (source : σ) (input : List UInt8) : Transcript :=
  let dialogue := converse source (lines input)
  { dialogue with output := sign ++ dialogue.output }

end DiceNotation.Prompt
