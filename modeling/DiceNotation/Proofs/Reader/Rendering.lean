import DiceNotation.Dice.Script
import DiceNotation.Proofs.Reader.Completeness
import DiceNotation.Proofs.Token.RoundTrip

/-! Expressions shown and read again. The text of an expression is scanned as one word of
the grammar, in which every operation stands in brackets, so that it is read back as that
expression, and evaluates as it does. -/

namespace DiceNotation

open Token (Apart maxTokens nesting scan scan_append tokenize)

/-! ### The word that a text shows -/

def Operator.token : Operator → Token
  | add => .plus
  | sub => .minus
  | mul => .star
  | div => .slash

theorem Operator.operator?_token (op : Operator) : op.token.operator? = some op := by
  cases op <;> rfl

theorem Operator.scan_symbol (op : Operator) : scan op.symbol = [op.token] := by
  cases op <;> rfl

def Token.bracket (enclose : Bool) (ts : List Token) : List Token :=
  if enclose then leftParen :: (ts ++ [rightParen]) else ts

namespace Expr

/-- The tokens of the text, bracketed as the text is. -/
def tokens : Expr → List Token
  | literal x => [.integer x]
  | binary op l r => .leftParen :: (l.tokens ++ op.token :: r.tokens ++ [.rightParen])
  | dice c s => Token.bracket c.isDice c.tokens ++ .dice :: Token.bracket s.isDice s.tokens

/-- No literal has a sign. -/
def Unsigned : Expr → Prop
  | literal x => 0 ≤ x
  | binary _ l r => l.Unsigned ∧ r.Unsigned
  | dice c s => c.Unsigned ∧ s.Unsigned

instance decidableUnsigned : (e : Expr) → Decidable e.Unsigned
  | literal x => inferInstanceAs (Decidable (0 ≤ x))
  | binary _ l r => @instDecidableAnd _ _ (decidableUnsigned l) (decidableUnsigned r)
  | dice c s => @instDecidableAnd _ _ (decidableUnsigned c) (decidableUnsigned s)

theorem scan_bracket (enclose : Bool) (text : String) :
    scan (bracket enclose text) = Token.bracket enclose (scan text) := by
  cases enclose with
  | false => rfl
  | true =>
    have htext : bracket true text = "(" ++ (text ++ ")") := String.append_assoc
    rw [htext, scan_append (by simp [Apart]), scan_append (by simp [Apart])]
    rfl

/-- The text is scanned piece by piece, for no two digits meet where its pieces do. -/
theorem scan_text {e : Expr} (h : e.Unsigned) : scan e.text = e.tokens := by
  induction e with
  | literal x => exact Token.scan_integer h
  | binary op l r ihl ihr =>
    have htext : (binary op l r).text =
        "(" ++ (l.text ++ (" " ++ (op.symbol ++ (" " ++ (r.text ++ ")"))))) := by
      simp only [text, String.append_assoc]
    have hopen : scan "(" = [.leftParen] := rfl
    have hclose : scan ")" = [.rightParen] := rfl
    have hblank : scan " " = [] := rfl
    rw [htext, scan_append (by simp [Apart]), scan_append (by simp [Apart]),
      scan_append (by simp [Apart]), scan_append (by simp [Apart]), scan_append (by simp [Apart]),
      scan_append (by simp [Apart]), hopen, hclose, hblank, op.scan_symbol, ihl h.1, ihr h.2]
    simp [tokens]
  | dice c s ihc ihs =>
    have htext : (dice c s).text = bracket c.isDice c.text ++ ("d" ++ bracket s.isDice s.text) :=
      String.append_assoc
    have hdice : scan "d" = [.dice] := rfl
    rw [htext, scan_append (by simp [Apart]), scan_append (by simp [Apart]), hdice, scan_bracket,
      scan_bracket, ihc h.1, ihs h.2]
    simp [tokens]

/-! ### Reading the word -/

theorem written_operand {e : Expr} (h : Written .dice e.tokens e)
    (hfactor : e.isDice = false → Written .factor e.tokens e) :
    Written .factor (Token.bracket e.isDice e.tokens) e := by
  cases hd : e.isDice with
  | false => exact hfactor hd
  | true => exact .bracket (.ofProduct (.ofDice h))

/-- The word writes the expression at the level of dice, and no looser: what is not dice is
in brackets, or a literal. -/
theorem written_tokens (e : Expr) :
    Written .dice e.tokens e ∧ (e.isDice = false → Written .factor e.tokens e) := by
  induction e with
  | literal x => exact ⟨.ofFactor (.integer x), fun _ => .integer x⟩
  | binary op l r ihl ihr =>
    have hl : Written op.level l.tokens l := by
      cases op with
      | add | sub => exact .ofProduct (.ofDice ihl.1)
      | mul | div => exact .ofDice ihl.1
    have hr : Written op.level.tighter r.tokens r := by
      cases op with
      | add | sub => exact .ofDice ihr.1
      | mul | div => exact ihr.1
    have hsum : Written .sum (l.tokens ++ op.token :: r.tokens) (.binary op l r) := by
      have h := hl.binary op.operator?_token hr
      cases op with
      | add | sub => exact h
      | mul | div => exact .ofProduct h
    exact ⟨.ofFactor (.bracket hsum), fun _ => .bracket hsum⟩
  | dice c s ihc ihs =>
    refine ⟨.dice (written_operand ihc.1 ihc.2) (written_operand ihs.1 ihs.2), ?_⟩
    exact fun h => Bool.noConfusion h

theorem read_tokens {e : Expr} (h : nesting e.tokens ≤ maxDepth) : read e.tokens = (e, []) :=
  readWithin_of_written (.ofProduct (.ofDice (written_tokens e).1)) h

theorem tokens_ne_nil (e : Expr) : e.tokens ≠ [] := by
  cases e with
  | literal x | binary op l r => exact List.cons_ne_nil _ _
  | dice c s => exact List.append_ne_nil_of_right_ne_nil _ (List.cons_ne_nil _ _)

end Expr

/-! ### Evaluating the text -/

/-- The tokens that an evaluation reports have no influence on it. -/
theorem Reading.evaluate_math {σ : Type} [Source σ] (tree : Expr) (math math' : String)
    (source : σ) (limits : Limits) :
    Reading.evaluate { tree, math } source limits =
      ((Reading.evaluate { tree, math := math' } source limits).1.map fun E => { E with math },
        (Reading.evaluate { tree, math := math' } source limits).2) := by
  rcases h : tree.eval limits { source } with ⟨result, table⟩
  have heval := @evaluate_of_eval σ _ limits { tree, math } source result table h
  have heval' := @evaluate_of_eval σ _ limits { tree, math := math' } source result table h
  rw [heval, heval']
  cases result with
  | ok total | error fault => rfl

namespace Expr

/-- An expression without signed literals, whose text keeps to the greatest nesting and the
greatest number of tokens, is what its text is read as, to the last token. So its text has
the total, the log or the fault of the expression, and leaves the same source. -/
theorem read_text {e : Expr} (hunsigned : e.Unsigned) (hnesting : nesting (scan e.text) ≤ maxDepth)
    (hlength : (scan e.text).length ≤ maxTokens) :
    read (tokenize e.text) = (e, []) ∧
    ∀ {σ : Type} [Source σ] (source : σ) (limits : Limits) (math : String),
      let shown := evaluate e.text source limits
      let direct := Reading.evaluate { tree := e, math } source limits
      shown.1.map (fun E => (E.total, E.log)) = direct.1.map (fun E => (E.total, E.log)) ∧
      shown.2 = direct.2 := by
  have hscan := scan_text hunsigned
  rw [hscan] at hnesting
  have htokens : tokenize e.text = e.tokens := by
    rw [Token.tokenize_of_scan (hscan ▸ e.tokens_ne_nil) hlength, hscan]
  have hread : read (tokenize e.text) = (e, []) := by
    rw [htokens]
    exact read_tokens hnesting
  refine ⟨hread, ?_⟩
  intro σ _ source limits math shown direct
  let normal := Token.normalize (tokenize e.text)
  have hreading : Reading.ofText e.text = { tree := e, math := normal } :=
    congrArg (fun r => Reading.mk r.1 normal) hread
  have hshown : shown = (direct.1.map fun E => { E with math := normal }, direct.2) := by
    rw [← Reading.evaluate_math e normal math source limits, ← hreading]
    rfl
  rw [hshown]
  refine ⟨?_, rfl⟩
  cases direct.1 with
  | ok E | error fault => rfl

/-- Dice whose number is thrown, inside as many brackets as can be read: `1 - (1 - …)`. -/
theorem read_text_deepest :
    let roll : Expr := .dice (.dice (.literal 1) (.literal 4)) (.literal 6)
    let e := Nat.iterate (.binary .sub (.literal 1)) 63 roll
    ∃ E : Evaluation, E.total = -10 ∧ e.Unsigned ∧ nesting (scan e.text) = maxDepth ∧
      (scan e.text).length ≤ maxTokens ∧ read (tokenize e.text) = (e, []) ∧
      Reading.evaluate { tree := e, math := "" } (Script.once [2, 5, 6, 9]) {} =
        (.ok E, Script.once [9]) ∧
      (evaluate e.text (Script.once [2, 5, 6, 9]) {}).1.map (fun E => (E.total, E.log)) =
        .ok (E.total, E.log) ∧
      (evaluate e.text (Script.once [2, 5, 6, 9]) {}).2 = Script.once [9] := by
  intro roll e
  have hunsigned : e.Unsigned := by decide +kernel
  have hscan := scan_text hunsigned
  have hnesting : nesting (scan e.text) = maxDepth := by
    rw [hscan]
    decide +kernel
  have hlength : (scan e.text).length ≤ maxTokens := by
    rw [hscan]
    decide +kernel
  obtain ⟨hread, hsame⟩ := read_text hunsigned (Nat.le_of_eq hnesting) hlength
  obtain ⟨houtcome, hsource⟩ := hsame (Script.once [2, 5, 6, 9]) {} ""
  have heval : Reading.evaluate { tree := e, math := "" } (Script.once [2, 5, 6, 9]) {} =
      (.ok { total := -10
             log := [⟨1, Sides.ofNat 4 (by decide) (by decide), [2]⟩,
               ⟨2, Sides.ofNat 6 (by decide) (by decide), [5, 6]⟩]
             math := "" }, Script.once [9]) := by decide +kernel
  rw [heval] at houtcome hsource
  exact ⟨_, rfl, hunsigned, hnesting, hlength, hread, heval, houtcome, hsource⟩

end Expr

end DiceNotation
