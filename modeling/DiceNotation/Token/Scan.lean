import DiceNotation.Token

/-! Reading text as tokens. The text is cut into lexemes, the maximal runs of
digits and all other characters one by one; a lexeme outside the notation is
dropped. No text is refused: one without a token reads as `1d20`. -/

namespace DiceNotation.Token

/-! ### Lexemes -/

/-- A cut falls between two characters unless both are digits. -/
def lexemes (cs : List Char) : List (List Char) := cs.splitBy fun a b => a.isDigit && b.isDigit

def maxLiteral : Nat := Int64.maxValue.toNatClampNeg

/-- One more decimal digit, stopping at the greatest literal. -/
def pushDigit (n : Nat) (digit : Char) : Nat :=
  min (10 * n + (digit.toNat - '0'.toNat)) maxLiteral

def ofDigits (digits : List Char) : Token := integer (Int64.ofNat (digits.foldl pushDigit 0))

def ofChar : Char → Token
  | 'd' => dice
  | '(' => leftParen
  | ')' => rightParen
  | '+' => plus
  | '-' => minus
  | '*' => star
  | '/' => slash
  | _ => unknown

def ofLexeme : List Char → Token
  | [] => unknown
  | c :: cs => if c.isDigit then ofDigits (c :: cs) else ofChar c

/-! ### Texts -/

/-- All tokens of the notation in a text. -/
def scan (text : String) : List Token :=
  ((lexemes text.toList).map ofLexeme).filter (· ≠ unknown)

/-- Tokens past this many are dropped. -/
def maxTokens : Nat := 1024

/-- Read in place of a text that holds no token. -/
def defaultExpression : String := "1d20"

/-- The tokens that are evaluated: at least one and at most `maxTokens`. -/
def tokenize (text : String) : List Token :=
  match (scan text).take maxTokens with
  | [] => scan defaultExpression
  | t :: ts => t :: ts

end DiceNotation.Token
