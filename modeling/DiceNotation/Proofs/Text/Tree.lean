import DiceNotation.Expr
import DiceNotation.Proofs.Text.Delimited

/-! Expressions told apart by their texts. A roll stands in brackets only as an operand of
another roll, and a minus sign is an operator or part of a literal; yet the text of an
expression can be read off any longer text that goes on with neither a character of a number
nor a `d`. The induction goes through the texts as operands of a roll, after which a `d` may
follow. -/

namespace DiceNotation

open Text (Delimited Stops delimited_int numeral stops_cons stops_nil toList_toString_append_ne)

theorem Operator.symbol_append_inj {op op' : Operator} {s t : List Char}
    (h : op.symbol.toList ++ s = op'.symbol.toList ++ t) : op = op' ∧ s = t := by
  cases op <;> cases op' <;> simp_all [symbol]

namespace Expr

/-! ### The parts of a text -/

/-- The text of an expression as an operand of a roll. -/
def operandText (e : Expr) : String := bracket e.isDice e.text

theorem operandText_of_not_dice {e : Expr} (h : e.isDice = false) : e.operandText = e.text := by
  rw [operandText, h]
  rfl

variable (s : List Char)

theorem text_binary_append (op : Operator) (l r : Expr) :
    (binary op l r).text.toList ++ s = '(' :: (l.text.toList ++
      ' ' :: (op.symbol.toList ++ ' ' :: (r.text.toList ++ ')' :: s))) := by
  simp [text]

theorem text_dice_append (count sides : Expr) :
    (dice count sides).text.toList ++ s =
      count.operandText.toList ++ 'd' :: (sides.operandText.toList ++ s) := by
  simp [text, operandText]

theorem operandText_dice_append (count sides : Expr) :
    (dice count sides).operandText.toList ++ s =
      '(' :: ((dice count sides).text.toList ++ ')' :: s) := by
  simp [operandText, bracket, isDice]

/-! ### What may follow a text -/

/-- The characters that would join the text of an expression in front of them. -/
def joins (c : Char) : Bool := numeral c || c == 'd'

theorem stops_numeral {cs : List Char} (h : Stops joins cs) : Stops numeral cs := fun c hc =>
  (Bool.or_eq_false_iff.1 (h c hc)).1

theorem not_stops_joins_d (cs : List Char) : ¬Stops joins ('d' :: cs) := fun h =>
  Bool.noConfusion (stops_cons.1 h)

/-! ### One form of expression at a time -/

variable {e count sides l r : Expr}

theorem delimited_operand_literal (x : Int64) : Delimited numeral operandText (literal x) := by
  intro e' s t hs ht h
  rw [operandText_of_not_dice rfl] at h
  cases e' with
  | literal y =>
    obtain ⟨hxy, hst⟩ := delimited_int x.toInt hs ht h
    exact ⟨congrArg literal (Int64.toInt_inj.1 hxy), hst⟩
  | binary op l r =>
    rw [operandText_of_not_dice rfl, text_binary_append] at h
    exact absurd h (toList_toString_append_ne rfl)
  | dice count sides =>
    rw [operandText_dice_append] at h
    exact absurd h (toList_toString_append_ne rfl)

theorem delimited_operand_binary (op : Operator) (hl : Delimited joins text l)
    (hr : Delimited joins text r) : Delimited numeral operandText (binary op l r) := by
  intro e' s t _ _ h
  rw [operandText_of_not_dice rfl, text_binary_append] at h
  cases e' with
  | literal y => exact absurd h.symm (toList_toString_append_ne rfl)
  | binary op' l' r' =>
    rw [operandText_of_not_dice rfl, text_binary_append] at h
    obtain ⟨rfl, hrest⟩ := hl (stops_cons.2 rfl) (stops_cons.2 rfl) (List.cons.inj h).2
    obtain ⟨rfl, hright⟩ := Operator.symbol_append_inj (List.cons.inj hrest).2
    obtain ⟨rfl, hclose⟩ := hr (stops_cons.2 rfl) (stops_cons.2 rfl) (List.cons.inj hright).2
    exact ⟨rfl, (List.cons.inj hclose).2⟩
  | dice count sides =>
    -- A blank ends the left operand, and the bracket ends the roll.
    rw [operandText_dice_append] at h
    obtain ⟨-, hrest⟩ := hl (stops_cons.2 rfl) (stops_cons.2 rfl) (List.cons.inj h).2
    exact absurd (List.cons.inj hrest).1 (by decide)

theorem delimited_operand_dice (hdice : Delimited joins text (dice count sides)) :
    Delimited numeral operandText (dice count sides) := by
  intro e' s t _ _ h
  rw [operandText_dice_append] at h
  cases e' with
  | literal y => exact absurd h.symm (toList_toString_append_ne rfl)
  | binary op l r =>
    rw [operandText_of_not_dice rfl, text_binary_append] at h
    obtain ⟨-, hrest⟩ := hdice (stops_cons.2 rfl) (stops_cons.2 rfl) (List.cons.inj h).2
    exact absurd (List.cons.inj hrest).1 (by decide)
  | dice count' sides' =>
    rw [operandText_dice_append] at h
    obtain ⟨heq, hclose⟩ := hdice (stops_cons.2 rfl) (stops_cons.2 rfl) (List.cons.inj h).2
    exact ⟨heq, (List.cons.inj hclose).2⟩

/-- Were the other text that of a roll, this one would be its number of dice, with a `d`
behind it. -/
theorem delimited_of_operand (he : e.isDice = false) (hoperand : Delimited numeral operandText e) :
    Delimited joins text e := by
  intro e' s t hs ht h
  rw [← operandText_of_not_dice he] at h
  cases e' with
  | literal y | binary op l r =>
    rw [← operandText_of_not_dice rfl] at h
    exact hoperand (stops_numeral hs) (stops_numeral ht) h
  | dice count sides =>
    rw [text_dice_append] at h
    obtain ⟨-, rfl⟩ := hoperand (stops_numeral hs) (stops_cons.2 rfl) h
    exact absurd hs (not_stops_joins_d _)

theorem delimited_dice (hcount : Delimited numeral operandText count)
    (hsides : Delimited numeral operandText sides) : Delimited joins text (dice count sides) := by
  intro e' s t hs ht h
  rw [text_dice_append] at h
  cases e' with
  | dice count' sides' =>
    rw [text_dice_append] at h
    obtain ⟨rfl, hrest⟩ := hcount (stops_cons.2 rfl) (stops_cons.2 rfl) h
    obtain ⟨rfl, hst⟩ := hsides (stops_numeral hs) (stops_numeral ht) (List.cons.inj hrest).2
    exact ⟨rfl, hst⟩
  | literal y | binary op l r =>
    rw [← operandText_of_not_dice rfl] at h
    obtain ⟨-, rfl⟩ := hcount (stops_cons.2 rfl) (stops_numeral ht) h
    exact absurd ht (not_stops_joins_d _)

/-! ### All expressions -/

theorem delimited (e : Expr) : Delimited numeral operandText e ∧ Delimited joins text e := by
  induction e with
  | literal x =>
    have hoperand := delimited_operand_literal x
    exact ⟨hoperand, delimited_of_operand rfl hoperand⟩
  | binary op l r ihl ihr =>
    have hoperand := delimited_operand_binary op ihl.2 ihr.2
    exact ⟨hoperand, delimited_of_operand rfl hoperand⟩
  | dice count sides ihcount ihsides =>
    have hdice := delimited_dice ihcount.1 ihsides.1
    exact ⟨delimited_operand_dice hdice, hdice⟩

/-- Two expressions that are shown alike are the same, grouping, signs and all. -/
theorem text_inj {e e' : Expr} : e.text = e'.text ↔ e = e' := by
  refine ⟨fun h => ?_, congrArg text⟩
  exact ((delimited e).2 stops_nil stops_nil (congrArg (·.toList ++ []) h)).1

end Expr

end DiceNotation
