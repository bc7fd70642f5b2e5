import DiceNotation.Dice.Words
import DiceNotation.Prompt

/-! The prompt on standard input and output, with dice thrown from the randomness
of the operating system. -/

namespace DiceNotation.Main

open Prompt

/-- More words than the dice of a line can use up but by the unlikeliest run of
rejections: four for each die of each roll. -/
def wordsFor (line? : Option (List UInt8)) : Nat :=
  let text := (line?.bind decode?).getD ""
  let rolls := ((Token.tokenize text).filter (· = .dice)).length
  4 * rolls * ({} : Limits).maxCount.toNat

/-- The 32-bit word at a place in a sequence of words, least significant byte first. -/
def wordAt (bytes : Array UInt8) (place : Nat) : UInt32 :=
  (List.range 4).foldr (fun k word => word <<< 8 ||| (bytes.getD (4 * place + k) 0).toUInt32) 0

def randomWords (count : Nat) : IO (List UInt32) := do
  let bytes ← IO.getRandomBytes (4 * count).toUSize
  return (List.range count).map (wordAt bytes.data)

/-- The words that are left, and as many more as the line may use up. -/
def refill (words : Words) (line? : Option (List UInt8)) : IO Words := do
  let fresh ← randomWords (wordsFor line? - words.upcoming.length)
  return ⟨words.upcoming ++ fresh⟩

/-- The bytes up to and including the next newline, or up to the end of the input. -/
partial def readLine (input : IO.FS.Stream) (line : Array UInt8) : IO (Array UInt8) := do
  let bytes ← input.read 1
  if bytes.isEmpty then return line
  let line := line ++ bytes.data
  if bytes.data.contains newline then return line else readLine input line

def write (stream : IO.FS.Stream) (text : String) : IO Unit := do
  stream.putStr text
  stream.flush

def say (transcript : Transcript) : IO Unit := do
  write (← IO.getStdout) transcript.output
  write (← IO.getStderr) transcript.errors

partial def loop (input : IO.FS.Stream) (words : Words) : IO UInt32 := do
  write (← IO.getStdout) sign
  let line? := (lines (← readLine input #[]).toList).head?
  let (reply, words?) := respond (← refill words line?) line?
  say reply
  match words? with
  | none => return reply.code
  | some words => loop input words

end DiceNotation.Main

def main : IO UInt32 := do DiceNotation.Main.loop (← IO.getStdin) ⟨[]⟩
