import DiceNotation.Evaluation
import DiceNotation.Proofs.Text.Delimited
import DiceNotation.Token

/-! What an evaluation reports, read off its text. The tokens are free text, and nothing in
a list of rolls is escaped; but the total is what follows the last equals sign, each roll
has a line of its own, and only numbers are written between the marks of a roll. -/

namespace DiceNotation

open Text (Entry append_cons_inj_of_notMem_right delimited_nat intercalate_texts_inj
  mem_intercalate_texts numeral numeral_of_mem numeral_of_mem_nat stops_cons
  toList_toString_ne_nil toString_int_inj toString_nat_inj)

/-! ### One roll -/

namespace RollRecord

/-- The faces as they stand between the brackets. -/
def faceTexts (r : RollRecord) : List String := r.rolls.map fun face => toString face.toNat

theorem toList_text (r : RollRecord) :
    r.text.toList = (toString r.count.toNat).toList ++
      'd' :: ((toString r.sides.toNat).toList ++
        ':' :: ' ' :: '[' :: ((", ".intercalate r.faceTexts).toList ++ [']'])) := by
  simp [text, Sides.text, faceTexts]

theorem toList_comma : ", ".toList = [',', ' '] := by decide

theorem entry_faceTexts (r : RollRecord) : ∀ face ∈ r.faceTexts, Entry ',' face.toList := by
  intro text htext
  obtain ⟨face, -, rfl⟩ := List.mem_map.1 htext
  exact ⟨toList_toString_ne_nil face.toNat, fun h => Bool.noConfusion (numeral_of_mem_nat h)⟩

/-- The `d` ends the number of dice and the colon the number of sides. -/
theorem text_injective : Function.Injective text := by
  intro r r' h
  have hlist := congrArg String.toList h
  rw [toList_text, toList_text] at hlist
  obtain ⟨hcount, hlist⟩ := delimited_nat _ (stops_cons.2 rfl) (stops_cons.2 rfl) hlist
  obtain ⟨hsides, hlist⟩ :=
    delimited_nat _ (stops_cons.2 rfl) (stops_cons.2 rfl) (List.cons.inj hlist).2
  simp only [List.cons.injEq, true_and, List.append_cancel_right_eq, String.toList_inj] at hlist
  have hfaces : r.faceTexts = r'.faceTexts :=
    intercalate_texts_inj toList_comma (by decide) r.entry_faceTexts
      r'.entry_faceTexts hlist
  have hrolls : r.rolls = r'.rolls :=
    (List.map_inj_right fun _ _ h => UInt32.toNat_inj.1 (toString_nat_inj.1 h)).1 hfaces
  cases r; cases r'
  rw [RollRecord.mk.injEq]
  exact ⟨UInt64.toNat_inj.1 hcount, Sides.toNat_inj.1 hsides, hrolls⟩

/-- The characters of which rolls are written. -/
def mark (c : Char) : Bool := numeral c || ['d', ':', ' ', '[', ',', ']'].contains c

theorem mark_of_numeral {c : Char} (h : numeral c = true) : mark c = true := by rw [mark, h]; rfl

theorem mark_of_mem_faceTexts {r : RollRecord} :
    ∀ c ∈ (", ".intercalate r.faceTexts).toList, mark c = true := by
  intro c hc
  obtain hc | ⟨text, htext, hc⟩ := mem_intercalate_texts hc
  · simp only [toList_comma, List.mem_cons, List.not_mem_nil, or_false] at hc
    obtain rfl | rfl := hc <;> rfl
  · obtain ⟨face, -, rfl⟩ := List.mem_map.1 htext
    exact mark_of_numeral (numeral_of_mem_nat hc)

theorem mark_of_mem_text {r : RollRecord} : ∀ c ∈ r.text.toList, mark c = true := by
  simp only [toList_text, List.forall_mem_append, List.forall_mem_cons]
  exact ⟨fun c hc => mark_of_numeral (numeral_of_mem_nat hc), rfl,
    fun c hc => mark_of_numeral (numeral_of_mem_nat hc), rfl, rfl, rfl, mark_of_mem_faceTexts,
    rfl, List.forall_mem_nil _⟩

theorem text_ne_nil (r : RollRecord) : r.text.toList ≠ [] := by
  rw [toList_text]
  exact List.append_ne_nil_of_right_ne_nil _ (List.cons_ne_nil _ _)

end RollRecord

/-! ### The tokens -/

theorem Token.newline_notMem_text (t : Token) : '\n' ∉ t.text.toList := by
  cases t with
  | integer x => exact fun h => Bool.noConfusion (numeral_of_mem h)
  | dice | leftParen | rightParen | plus | minus | star | slash | unknown => decide

theorem Token.newline_notMem_normalize (ts : List Token) : '\n' ∉ (normalize ts).toList := by
  intro h
  obtain h | ⟨text, htext, h⟩ := mem_intercalate_texts h
  · exact (by decide : '\n' ∉ " ".toList) h
  · obtain ⟨t, -, rfl⟩ := List.mem_map.1 htext
    exact t.newline_notMem_text h

/-! ### The whole report -/

namespace Evaluation

theorem logLines_inj {E F : Evaluation} : E.logLines = F.logLines ↔ E.log = F.log :=
  List.map_inj_right fun _ _ h => RollRecord.text_injective h

/-- What follows the equals sign, line by line. -/
def report (E : Evaluation) : List String := toString E.total.toInt :: E.logLines

theorem toList_break : "\n  ".toList = ['\n', ' ', ' '] := by decide

theorem toList_text (E : Evaluation) :
    E.text.toList =
      (E.math.toList ++ [' ']) ++ '=' :: ' ' :: ("\n  ".intercalate E.report).toList := by
  have htext : E.text = E.math ++ " = " ++ "\n  ".intercalate E.report :=
    String.intercalate_cons_append
  simp [htext]

/-- No line is empty, and all are made of the characters of rolls. -/
theorem mark_of_mem_report {E : Evaluation} :
    ∀ line ∈ E.report, line.toList ≠ [] ∧ ∀ c ∈ line.toList, RollRecord.mark c = true := by
  intro line hline
  obtain rfl | hline := List.mem_cons.1 hline
  · exact ⟨toList_toString_ne_nil _, fun c hc => RollRecord.mark_of_numeral (numeral_of_mem hc)⟩
  · obtain ⟨r, -, rfl⟩ := List.mem_map.1 hline
    exact ⟨r.text_ne_nil, RollRecord.mark_of_mem_text⟩

theorem entry_report (E : Evaluation) : ∀ line ∈ E.report, Entry '\n' line.toList := by
  intro line hline
  obtain ⟨hne, hmark⟩ := mark_of_mem_report line hline
  exact ⟨hne, fun h => Bool.noConfusion (hmark _ h)⟩

/-- So the equals sign in front of the total is the last one, whatever the tokens hold. -/
theorem equals_notMem_report (E : Evaluation) :
    '=' ∉ ' ' :: ("\n  ".intercalate E.report).toList := by
  intro h
  obtain h | h := List.mem_cons.1 h
  · contradiction
  obtain h | ⟨line, hline, h⟩ := mem_intercalate_texts h
  · rw [toList_break] at h
    contradiction
  · exact Bool.noConfusion ((mark_of_mem_report line hline).2 _ h)

theorem report_inj {E F : Evaluation} (h : E.report = F.report) :
    E.total = F.total ∧ E.log = F.log := by
  obtain ⟨htotal, hlog⟩ := List.cons.inj h
  exact ⟨Int64.toInt_inj.1 (toString_int_inj.1 htotal), logLines_inj.1 hlog⟩

theorem text_injective : Function.Injective text := by
  intro E F h
  have hlist := congrArg String.toList h
  rw [toList_text, toList_text] at hlist
  obtain ⟨hmath, hreport⟩ := append_cons_inj_of_notMem_right E.equals_notMem_report
    F.equals_notMem_report hlist
  have hlines : E.report = F.report :=
    intercalate_texts_inj toList_break (by decide) E.entry_report F.entry_report
      (String.toList_inj.1 (List.cons.inj hreport).2)
  obtain ⟨htotal, hlog⟩ := report_inj hlines
  cases E; cases F
  rw [Evaluation.mk.injEq]
  exact ⟨htotal, hlog, String.toList_inj.1 (List.append_cancel_right hmath)⟩

/-- The text of an evaluation loses nothing: it is the text of one total, one log and one
`math` only, even of a log that no roll of dice would give. A newline in `math` would do no
harm, but tokens are shown without any. For the log alone the lines of the log are enough. -/
theorem text_determines :
    (∀ ts : List Token, '\n' ∉ (Token.normalize ts).toList) ∧
    (∀ E F : Evaluation, E.text = F.text ↔ E = F) ∧
    ∀ E F : Evaluation, E.logLines = F.logLines ↔ E.log = F.log :=
  ⟨Token.newline_notMem_normalize, fun _ _ => text_injective.eq_iff, fun _ _ => logLines_inj⟩

end Evaluation

end DiceNotation
