import DiceNotation.Token.Scan
import Mathlib.Data.List.SplitBy

/-! Lexemes one by one. A text is scanned in parts wherever no run of digits is cut, a
run of digits is the least of its value and the greatest literal, and the text of a token
is one lexeme, which is scanned as that token. -/

namespace DiceNotation.Token

/-! ### Texts in parts -/

/-- No run of digits goes on from one list of characters into another. -/
def Apart (cs ds : List Char) : Prop :=
  ∀ a ∈ cs.getLast?, ∀ b ∈ ds.head?, (a.isDigit && b.isDigit) = false

theorem lexemes_append {cs ds : List Char} (h : Apart cs ds) :
    lexemes (cs ++ ds) = lexemes cs ++ lexemes ds := List.splitBy_append h

theorem scan_append {s t : String} (h : Apart s.toList t.toList) :
    scan (s ++ t) = scan s ++ scan t := by
  simp only [scan, String.toList_append, lexemes_append h, List.map_append, List.filter_append]

/-! ### Runs of digits -/

theorem pushDigit_min (n : Nat) (digit : Char) :
    pushDigit (min n maxLiteral) digit = min (10 * n + (digit.toNat - '0'.toNat)) maxLiteral := by
  unfold pushDigit
  omega

/-- Stopping at the greatest literal at every digit is stopping there in the end. -/
theorem foldl_pushDigit_min (digits : List Char) (n : Nat) :
    digits.foldl pushDigit (min n maxLiteral) =
      min (Nat.ofDigitChars 10 digits n) maxLiteral := by
  induction digits generalizing n with
  | nil => rfl
  | cons digit digits ih => rw [List.foldl_cons, pushDigit_min, ih, Nat.ofDigitChars_cons]

theorem ofDigits_eq (digits : List Char) :
    ofDigits digits = integer (Int64.ofNat (min (Nat.ofDigitChars 10 digits 0) maxLiteral)) := by
  have h := foldl_pushDigit_min digits 0
  rw [Nat.zero_min] at h
  rw [ofDigits, h]

theorem lexemes_digits {digits : List Char} (hne : digits ≠ [])
    (h : ∀ c ∈ digits, c.isDigit = true) : lexemes digits = [digits] := by
  refine List.splitBy_of_isChain hne (List.Pairwise.isChain ?_)
  refine List.pairwise_iff_forall_sublist.2 fun {a b} hab => ?_
  have hmem := hab.subset
  rw [h a (hmem (by simp)), h b (hmem (by simp))]
  rfl

theorem scan_digits {text : String} (hne : text.toList ≠ [])
    (h : ∀ c ∈ text.toList, c.isDigit = true) : scan text = [ofDigits text.toList] := by
  rw [scan, lexemes_digits hne h]
  obtain ⟨c, cs, hcs⟩ := List.exists_cons_of_ne_nil hne
  rw [hcs] at h ⊢
  have hc : ofLexeme (c :: cs) = ofDigits (c :: cs) := if_pos (h c List.mem_cons_self)
  rw [List.map_singleton, hc]
  rfl

/-! ### Tokens that a text can hold -/

/-- The tokens of the notation; their literals have no sign. -/
def Scannable : Token → Prop
  | integer x => 0 ≤ x
  | unknown => False
  | _ => True

instance : DecidablePred Scannable
  | integer x => inferInstanceAs (Decidable (0 ≤ x))
  | unknown => instDecidableFalse
  | dice | leftParen | rightParen | plus | minus | star | slash => instDecidableTrue

theorem scannable_ofDigits (digits : List Char) : Scannable (ofDigits digits) := by
  have hlt : min (Nat.ofDigitChars 10 digits 0) maxLiteral < 2 ^ 63 :=
    Nat.lt_of_le_of_lt (Nat.min_le_right _ _) (by decide)
  rw [ofDigits_eq]
  change (0 : Int64) ≤ _
  rw [Int64.le_iff_toInt_le, Int64.toInt_ofNat_of_lt hlt]
  exact Int.natCast_nonneg _

theorem scannable_ofChar {c : Char} (h : ofChar c ≠ unknown) : Scannable (ofChar c) := by
  unfold ofChar at h ⊢
  split at h <;> trivial

theorem scannable_ofLexeme {lexeme : List Char} (h : ofLexeme lexeme ≠ unknown) :
    Scannable (ofLexeme lexeme) := by
  cases lexeme with
  | nil => contradiction
  | cons c cs =>
    by_cases hc : c.isDigit = true
    · rw [ofLexeme, if_pos hc]
      exact scannable_ofDigits (c :: cs)
    · rw [ofLexeme, if_neg hc] at h ⊢
      exact scannable_ofChar h

theorem scannable_of_mem_scan {text : String} {t : Token} (h : t ∈ scan text) : Scannable t := by
  obtain ⟨hmem, hne⟩ := List.mem_filter.1 h
  obtain ⟨lexeme, -, rfl⟩ := List.mem_map.1 hmem
  exact scannable_ofLexeme (of_decide_eq_true hne)

/-- A literal is written in decimal, which is one run of digits. -/
theorem scan_integer {x : Int64} (h : 0 ≤ x) : scan (integer x).text = [integer x] := by
  have hx : (x.toNatClampNeg : Int) = x.toInt := Int64.cast_toNatClampNeg x h
  have hmax : x.toNatClampNeg ≤ maxLiteral := by
    have := x.toInt_lt
    have : maxLiteral = 2 ^ 63 - 1 := rfl
    omega
  have htext : (integer x).text.toList = Nat.toDigits 10 x.toNatClampNeg := by
    rw [text, ← hx]
    exact Nat.toList_repr
  have hscan := @scan_digits (integer x).text
  rw [htext] at hscan
  rw [hscan Nat.toDigits_ne_nil fun c hc => Nat.isDigit_of_mem_toDigits (by decide) (by decide) hc,
    ofDigits_eq, Nat.ofDigitChars_ten_toDigits, Nat.min_eq_left hmax,
    Int64.ofNat_toNatClampNeg x h]

theorem scan_text {t : Token} (h : Scannable t) : scan t.text = [t] := by
  cases t with
  | integer x => exact scan_integer h
  | unknown => exact False.elim h
  | dice | leftParen | rightParen | plus | minus | star | slash => rfl

end DiceNotation.Token
