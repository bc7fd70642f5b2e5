import DiceNotation.Dice.Words
import DiceNotation.Proofs.Evaluation.Explained
import DiceNotation.Proofs.Token.Lexeme

/-! Tokens shown and read again. The lists that texts are tokenized as are exactly those
of one to `maxTokens` scannable tokens, and the text that shows such a list is tokenized
as that list, so an evaluation can be repeated from the tokens that it reports. -/

namespace DiceNotation

namespace Token

/-- What every text is tokenized as. -/
structure Tokenized (ts : List Token) : Prop where
  ne_nil : ts ≠ []
  length_le : ts.length ≤ maxTokens
  scannable : ∀ t ∈ ts, t.Scannable

/-! ### From texts to tokens -/

theorem tokenize_of_scan {text : String} (hne : scan text ≠ [])
    (hlen : (scan text).length ≤ maxTokens) : tokenize text = scan text := by
  obtain ⟨t, ts, hts⟩ := List.exists_cons_of_ne_nil hne
  rw [tokenize, List.take_of_length_le hlen, hts]

theorem tokenized_scan {text : String} (hne : scan text ≠ [])
    (hlen : (scan text).length ≤ maxTokens) : Tokenized (scan text) :=
  ⟨hne, hlen, fun _ h => scannable_of_mem_scan h⟩

theorem tokenized_tokenize (text : String) : Tokenized (tokenize text) := by
  unfold tokenize
  split
  · exact tokenized_scan (by decide) (by decide)
  · next t ts htake =>
    rw [← htake]
    refine ⟨by simp [htake], List.length_take_le _ _, fun u hu => ?_⟩
    exact scannable_of_mem_scan (List.mem_of_mem_take hu)

/-! ### From tokens to texts -/

theorem normalize_cons_cons (t u : Token) (ts : List Token) :
    normalize (t :: u :: ts) = t.text ++ " " ++ normalize (u :: ts) :=
  String.intercalate_cons_cons

/-- The blank keeps a token apart from the next one. -/
theorem scan_text_blank {t : Token} (h : Scannable t) (rest : String) :
    scan (t.text ++ " " ++ rest) = t :: scan rest := by
  have hblank : Apart t.text.toList " ".toList := by simp [Apart]
  have hrest : Apart (t.text ++ " ").toList rest.toList := by simp [Apart]
  have hnone : scan " " = [] := rfl
  rw [scan_append hrest, scan_append hblank, scan_text h, hnone]
  rfl

theorem scan_normalize {ts : List Token} (h : ∀ t ∈ ts, t.Scannable) :
    scan (normalize ts) = ts := by
  induction ts with
  | nil => rfl
  | cons t ts ih =>
    have ht := h t List.mem_cons_self
    cases ts with
    -- The last token has no blank after it.
    | nil => exact scan_text ht
    | cons u ts =>
      rw [normalize_cons_cons, scan_text_blank ht,
        ih fun v hv => h v (List.mem_cons_of_mem t hv)]

theorem Tokenized.tokenize_normalize {ts : List Token} (h : Tokenized ts) :
    tokenize (normalize ts) = ts := by
  have hscan := scan_normalize h.scannable
  rw [tokenize_of_scan] <;> rw [hscan]
  · exact h.ne_nil
  · exact h.length_le

end Token

open Token (Tokenized normalize tokenize)

theorem Reading.ofText_normalize (text : String) :
    Reading.ofText (normalize (tokenize text)) = Reading.ofText text := by
  rw [ofText, (Token.tokenized_tokenize text).tokenize_normalize, ofText]

/-! ### Round trips -/

/-- Tokenizing inverts the showing of tokens on all that texts are tokenized as, and the
tokens that an evaluation reports evaluate as the text that they were read from. -/
theorem tokenize_normalize_evaluate :
    (∀ text, Tokenized (tokenize text)) ∧
    (∀ ts, Tokenized ts → tokenize (normalize ts) = ts) ∧
    ∀ {σ : Type} [Source σ] {text : String} {source source' : σ} {limits : Limits}
      {E : Evaluation}, evaluate text source limits = (.ok E, source') →
        evaluate E.math source limits = (.ok E, source') := by
  refine ⟨Token.tokenized_tokenize, fun ts h => h.tokenize_normalize, ?_⟩
  intro σ _ text source source' limits E h
  have hmath : E.math = normalize (tokenize text) := (Reading.evaluate_eq_ok.1 h).1
  rw [hmath, evaluate, Reading.ofText_normalize]
  exact h

/-- A literal that saturates, and characters outside the notation. -/
theorem tokenize_normalize_evaluate_saturated :
    ∃ (ts : List Token) (E : Evaluation),
      ts = [.integer 2, .dice, .integer Int64.maxValue] ∧ Tokenized ts ∧
      tokenize (normalize ts) = ts ∧
      evaluate "roll 02d 99999999999999999999!" (Words.mk [0x80000000, 0, 7]) {} =
        (.ok E, ⟨[7]⟩) ∧
      E.math = "2 d 9223372036854775807" ∧
      evaluate "2 d 9223372036854775807" (Words.mk [0x80000000, 0, 7]) {} = (.ok E, ⟨[7]⟩) := by
  have hts : Tokenized [.integer 2, .dice, .integer Int64.maxValue] :=
    ⟨by decide, by decide, by decide⟩
  have hreading : Reading.ofText "roll 02d 99999999999999999999!" =
      ⟨.dice (.literal 2) (.literal Int64.maxValue), "2 d 9223372036854775807"⟩ := by
    decide +kernel
  have heval : evaluate "roll 02d 99999999999999999999!" (Words.mk [0x80000000, 0, 7]) {} =
      (.ok { total := 502
             log := [⟨2, Limits.defaultMaxSides, [501, 1]⟩]
             math := "2 d 9223372036854775807" }, ⟨[7]⟩) := by
    rw [evaluate, hreading]
    rfl
  have hagain := tokenize_normalize_evaluate.2.2 heval
  have hround := tokenize_normalize_evaluate.2.1 _ hts
  refine ⟨_, _, rfl, hts, hround, heval, ?_, hagain⟩
  rfl

end DiceNotation
