import DiceNotation.Dice.Script
import DiceNotation.Proofs.Token.Lexeme
import DiceNotation.Session

/-! Texts taken apart and put together. Scanning is fixed by what it makes of runs of digits
and of single characters, since a text can be cut anywhere but within a run. So characters
outside the notation may stand anywhere but there, and what comes after the greatest number of
tokens may be anything. -/

namespace DiceNotation

namespace Token

/-! ### Single characters -/

/-- The characters of the notation that are tokens by themselves. -/
def marks : List (Char × Token) :=
  [('d', dice), ('+', plus), ('-', minus), ('*', star), ('/', slash), ('(', leftParen),
    (')', rightParen)]

/-- A character outside the notation. -/
def Dropped (c : Char) : Prop := c.isDigit = false ∧ c ∉ marks.map Prod.fst

instance (c : Char) : Decidable (Dropped c) := inferInstanceAs (Decidable (_ ∧ _))

theorem scan_mark : ∀ m ∈ marks, scan (String.singleton m.1) = [m.2] := by
  decide

theorem Dropped.ofChar {c : Char} (h : Dropped c) : ofChar c = unknown := by
  have hmark := h.2
  unfold Token.ofChar
  split <;> first | rfl | exact absurd (by decide) hmark

theorem Dropped.ofLexeme {lexeme : List Char} (h : ∀ c ∈ lexeme, Dropped c) :
    ofLexeme lexeme = unknown := by
  cases lexeme with
  | nil => rfl
  | cons c cs =>
    have hc := h c List.mem_cons_self
    rw [Token.ofLexeme, hc.1, if_neg Bool.false_ne_true, hc.ofChar]

theorem scan_dropped {text : String} (h : ∀ c ∈ text.toList, Dropped c) : scan text = [] := by
  refine List.filter_eq_nil_iff.2 fun t ht => ?_
  obtain ⟨lexeme, hmem, rfl⟩ := List.mem_map.1 ht
  rw [Dropped.ofLexeme fun c hc => h c ?_]
  · decide
  · rw [← List.flatten_splitBy _ text.toList]
    exact List.mem_flatten.2 ⟨lexeme, hmem, hc⟩

/-! ### Runs of digits -/

theorem scan_digits_toInt {text : String} (hne : text ≠ "")
    (h : ∀ c ∈ text.toList, c.isDigit = true) : ∃ x : Int64, scan text = [.integer x] ∧
      x.toInt = min (Nat.ofDigitChars 10 text.toList 0 : Int) Int64.maxValue.toInt := by
  let n := Nat.ofDigitChars 10 text.toList 0
  have hlist : text.toList ≠ [] := fun hnil => hne (String.toList_eq_nil_iff.1 hnil)
  have hmax : (maxLiteral : Int) = Int64.maxValue.toInt := rfl
  have hlt : min n maxLiteral < 2 ^ 63 := Nat.lt_of_le_of_lt (Nat.min_le_right _ _) (by decide)
  refine ⟨Int64.ofNat (min n maxLiteral), ?_, ?_⟩
  · rw [scan_digits hlist h, ofDigits_eq]
  · rw [Int64.toInt_ofNat_of_lt hlt]
    omega

/-! ### Seams -/

theorem Dropped.apart {inserted : List Char} (h : ∀ c ∈ inserted, Dropped c) (cs : List Char) :
    Apart cs inserted := by
  intro a _ b hb
  rw [(h b (List.mem_of_mem_head? hb)).1, Bool.and_false]

theorem Apart.append_dropped {cs ds inserted : List Char} (h : Apart cs ds)
    (hi : ∀ c ∈ inserted, Dropped c) : Apart (cs ++ inserted) ds := by
  intro a ha
  rw [List.getLast?_append] at ha
  cases hlast : inserted.getLast? with
  | none =>
    rw [hlast, Option.none_or] at ha
    exact h a ha
  | some c =>
    rw [hlast, Option.some_or] at ha
    obtain rfl := Option.some.inj ha
    intro b _
    rw [(hi c (List.mem_of_getLast? hlast)).1, Bool.false_and]

theorem scan_append_dropped {w : String} (h : ∀ c ∈ w.toList, Dropped c) (s : String) :
    scan (s ++ w) = scan s := by
  rw [scan_append (Dropped.apart h s.toList), scan_dropped h, List.append_nil]

theorem scan_insert {s w t : String} (h : Apart s.toList t.toList)
    (hw : ∀ c ∈ w.toList, Dropped c) : scan (s ++ w ++ t) = scan (s ++ t) := by
  have hseam := h.append_dropped hw
  rw [← String.toList_append] at hseam
  rw [scan_append hseam, scan_append_dropped hw, scan_append h]

theorem tokenize_congr {s t : String} (h : scan s = scan t) : tokenize s = tokenize t := by
  rw [tokenize, h, tokenize]

theorem tokenize_of_scan_eq_nil {text : String} (h : scan text = []) :
    tokenize text = tokenize defaultExpression := by
  rw [tokenize, h]
  rfl

theorem tokenize_append_of_full {s t : String} (h : Apart s.toList t.toList)
    (hfull : maxTokens ≤ (scan s).length) : tokenize (s ++ t) = tokenize s := by
  rw [tokenize, scan_append h, List.take_append_of_le_length hfull, tokenize]

end Token

open Token (Apart Dropped marks maxTokens scan tokenize)

/-! ### Evaluation -/

/-- An evaluation depends on the tokens of the text only. -/
theorem evaluate_congr {σ : Type} [Source σ] {s t : String} (h : tokenize s = tokenize t)
    (source : σ) (limits : Limits) : evaluate s source limits = evaluate t source limits := by
  rw [evaluate, evaluate, Reading.ofText, Reading.ofText, h]

/-- A text cut anywhere but within a run of digits is scanned in parts. A run is the least of
its value and the greatest literal, a character of the notation is its token, and any other
character is none. So dropped characters may be inserted anywhere but within a run, a text
without a token is evaluated as `1d20`, and what follows enough tokens is not read. -/
theorem scan_compositional :
    (∀ s t : String, Apart s.toList t.toList → scan (s ++ t) = scan s ++ scan t) ∧
    (∀ text : String, text ≠ "" → (∀ c ∈ text.toList, c.isDigit = true) → ∃ x : Int64,
      scan text = [.integer x] ∧
        x.toInt = min (Nat.ofDigitChars 10 text.toList 0 : Int) Int64.maxValue.toInt) ∧
    (∀ m ∈ marks, scan (String.singleton m.1) = [m.2]) ∧
    (∀ c, Dropped c → scan (String.singleton c) = []) ∧
    ∀ {σ : Type} [Source σ] (source : σ) (limits : Limits),
      (∀ s w t : String, Apart s.toList t.toList → (∀ c ∈ w.toList, Dropped c) →
        evaluate (s ++ w ++ t) source limits = evaluate (s ++ t) source limits) ∧
      (∀ text : String, scan text = [] →
        evaluate text source limits = evaluate "1d20" source limits) ∧
      ∀ s t : String, Apart s.toList t.toList → maxTokens ≤ (scan s).length →
        evaluate (s ++ t) source limits = evaluate s source limits := by
  refine ⟨fun s t h => Token.scan_append h, fun text hne h => Token.scan_digits_toInt hne h,
    Token.scan_mark, fun c h => Token.scan_dropped (by simpa using h), ?_⟩
  intro σ _ source limits
  refine ⟨fun s w t h hw => ?_, fun text h => ?_, fun s t h hfull => ?_⟩
  · exact evaluate_congr (Token.tokenize_congr (Token.scan_insert h hw)) source limits
  · exact evaluate_congr (Token.tokenize_of_scan_eq_nil h) source limits
  · exact evaluate_congr (Token.tokenize_append_of_full h hfull) source limits

/-- Blanks, a wide two and a letter between two runs; a run with leading zeros, and one past
the greatest literal; a text without a token; and a text as full as a text can be. -/
theorem scan_compositional_wide_digit :
    scan ("2d" ++ "6+007") = scan "2d" ++ scan "6+007" ∧
    (∃ x : Int64, scan "007" = [.integer x] ∧ x.toInt = 7) ∧
    (∃ x : Int64, scan "99999999999999999999" = [.integer x] ∧ x.toInt = 9223372036854775807) ∧
    scan (String.singleton '(') = [.leftParen] ∧
    scan (String.singleton '２') = [] ∧
    evaluate ("2d" ++ " ２　x" ++ "6+007") (Script.once [3, 4]) {} =
      evaluate ("2d" ++ "6+007") (Script.once [3, 4]) {} ∧
    evaluate "fire!" (Script.once [17]) {} = evaluate "1d20" (Script.once [17]) {} ∧
    evaluate (String.ofList (List.replicate 1024 '(') ++ "7") (Script.once []) {} =
      evaluate (String.ofList (List.replicate 1024 '(')) (Script.once []) {} := by
  obtain ⟨happend, hdigits, hmarks, hdropped, hevaluate⟩ := scan_compositional
  obtain ⟨hinsert, -, -⟩ := hevaluate (Script.once [3, 4]) {}
  obtain ⟨-, hnone, -⟩ := hevaluate (Script.once [17]) {}
  obtain ⟨-, -, hfull⟩ := hevaluate (Script.once []) {}
  have hw : ∀ c ∈ " ２　x".toList, Dropped c := List.forall_iff_forall_mem.1 (by decide)
  refine ⟨happend "2d" "6+007" (by simp [Apart]), hdigits "007" (by simp) (by simp),
    hdigits "99999999999999999999" (by simp) (by simp), hmarks ('(', .leftParen) (by decide),
    hdropped '２' (by decide), hinsert "2d" " ２　x" "6+007" (by simp [Apart]) hw,
    hnone "fire!" (by decide), hfull _ "7" ?_ ?_⟩
  · rw [String.toList_ofList]
    intro a ha
    obtain rfl := List.eq_of_mem_replicate (List.mem_of_getLast? ha)
    intro b _
    rfl
  · rw [scan, String.toList_ofList]
    decide +kernel

end DiceNotation
