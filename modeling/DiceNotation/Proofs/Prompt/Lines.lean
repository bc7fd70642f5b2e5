import DiceNotation.Prompt
import DiceNotation.Proofs.Token.Insertion

/-! The lines of an input and what is read from them. A newline cuts the input in two, and
the lines of the first part come before those of the second; a carriage return in front of
it is dropped with it, or else is read as nothing. -/

namespace DiceNotation.Prompt

/-! ### Lines -/

theorem ofPieces_cons (piece : List UInt8) {pieces : List (List UInt8)} (h : pieces ≠ []) :
    ofPieces (piece :: pieces) = dropReturn piece :: ofPieces pieces := by
  cases pieces with
  | nil => contradiction
  | cons next pieces => rfl

theorem ofPieces_append (pieces : List (List UInt8)) {more : List (List UInt8)}
    (h : more ≠ []) : ofPieces (pieces ++ more) = pieces.map dropReturn ++ ofPieces more := by
  induction pieces with
  | nil => rfl
  | cons piece pieces ih =>
    rw [List.cons_append, ofPieces_cons piece (List.append_ne_nil_of_right_ne_nil pieces h), ih]
    rfl

/-- What stands in front of a newline is cut into lines that all end. -/
theorem lines_newline (before rest : List UInt8) :
    lines (before ++ newline :: rest) =
      (before.splitOn newline).map dropReturn ++ lines rest := by
  rw [lines, List.splitOn_append_cons_self, ofPieces_append _ (List.splitOn_ne_nil newline rest)]
  rfl

theorem lines_nil : lines [] = [] := rfl

theorem lines_append {a : List UInt8} (h : a = [] ∨ a.getLast? = some newline)
    (b : List UInt8) : lines (a ++ b) = lines a ++ lines b := by
  rcases h with rfl | h
  · rfl
  · obtain ⟨before, rfl⟩ := List.getLast?_eq_some_iff.1 h
    rw [lines_newline, lines_nil, List.append_nil, List.append_assoc]
    exact lines_newline before b

/-! ### Texts -/

theorem decode?_eq_some {line : List UInt8} {text : String} :
    decode? line = some text ↔ text.toByteArray = line.toByteArray := by
  have hline : (⟨line.toArray⟩ : ByteArray) = line.toByteArray :=
    ByteArray.ext (Array.ext' List.toList_data_toByteArray.symm)
  unfold decode? String.fromUTF8?
  rw [hline]
  constructor
  · intro h
    split at h
    · cases h
      rfl
    · cases h
  · intro h
    rw [dif_pos (h ▸ text.isValidUTF8)]
    exact congrArg some (String.toByteArray_inj.1 h.symm)

/-- In front of a text, bytes are read as they are read alone. -/
theorem decode?_append {ending : List UInt8} {text : String} (h : decode? ending = some text)
    (line : List UInt8) : decode? (line ++ ending) = (decode? line).map (· ++ text) := by
  rw [decode?_eq_some] at h
  ext whole
  rw [decode?_eq_some, Option.map_eq_some_iff, List.toByteArray_append, ← h]
  constructor
  · intro hwhole
    have hsize : whole.utf8ByteSize = line.toByteArray.size + text.toByteArray.size := by
      rw [← String.size_toByteArray, hwhole, ByteArray.size_append]
    -- The end of a text is a text, so that the cut falls between two characters.
    have hcut : (⟨line.toByteArray.size⟩ : String.Pos.Raw).IsValid whole := by
      refine String.Pos.Raw.isValid_iff_isValidUTF8_extract_utf8ByteSize.2 ⟨?_, ?_⟩
      · rw [String.Pos.Raw.le_iff, String.byteIdx_rawEndPos, hsize]
        exact Nat.le_add_right _ _
      · rw [hwhole, ByteArray.extract_append_eq_right rfl hsize]
        exact text.isValidUTF8
    obtain ⟨first, last, rfl, hfirst⟩ := String.Pos.Raw.isValid_iff_exists_append.1 hcut
    have hlen : first.toByteArray.size = line.toByteArray.size :=
      (congrArg String.Pos.Raw.byteIdx hfirst).symm
    rw [String.toByteArray_append,
      ByteArray.append_eq_append_iff_of_size_eq_left hlen] at hwhole
    obtain ⟨hline, hlast⟩ := hwhole
    exact ⟨first, decode?_eq_some.2 hline, by rw [String.toByteArray_inj.1 hlast]⟩
  · rintro ⟨first, hfirst, rfl⟩
    rw [String.toByteArray_append, decode?_eq_some.1 hfirst]

/-! ### Tokens -/

/-- What is evaluated where a line is read, which is all that matters of it. -/
def tokens? (line : List UInt8) : Option (List Token) := (decode? line).map Token.tokenize

theorem tokenize_append_return (text : String) :
    Token.tokenize (text ++ "\r") = Token.tokenize text := by
  have hreturn : ∀ c ∈ "\r".toList, Token.Dropped c :=
    List.forall_mem_singleton.2 (by decide)
  exact Token.tokenize_congr (Token.scan_append_dropped hreturn text)

theorem tokens?_append_return (line : List UInt8) :
    tokens? (line ++ [carriageReturn]) = tokens? line := by
  have hreturn : decode? [carriageReturn] = some "\r" := decode?_eq_some.2 rfl
  rw [tokens?, decode?_append hreturn, Option.map_map, tokens?]
  exact congrArg (Option.map · (decode? line)) (funext tokenize_append_return)

theorem tokens?_dropReturn_append_return (line : List UInt8) :
    tokens? (dropReturn (line ++ [carriageReturn])) = tokens? (dropReturn line) := by
  have hdrop : dropReturn (line ++ [carriageReturn]) = line := by
    rw [dropReturn, if_pos List.getLast?_concat, List.dropLast_concat]
  rw [hdrop]
  by_cases h : line.getLast? = some carriageReturn
  · obtain ⟨shorter, rfl⟩ := List.getLast?_eq_some_iff.1 h
    rw [dropReturn, if_pos h, List.dropLast_concat, tokens?_append_return]
  · rw [dropReturn, if_neg h]

/-- A byte that ends no line goes on with the last piece. -/
theorem exists_splitOn_concat {separator byte : UInt8} (h : byte ≠ separator)
    (input : List UInt8) :
    ∃ pieces last, input.splitOn separator = pieces ++ [last] ∧
      (input ++ [byte]).splitOn separator = pieces ++ [last ++ [byte]] := by
  induction input with
  | nil => exact ⟨[], [], rfl, List.splitOn_eq_singleton (by simpa using h.symm)⟩
  | cons first input ih =>
    obtain ⟨pieces, last, hinput, hbyte⟩ := ih
    rw [List.cons_append, List.splitOn_cons_eq_if_modifyHead, List.splitOn_cons_eq_if_modifyHead,
      hinput, hbyte]
    by_cases hfirst : (first == separator) = true
    · exact ⟨[] :: pieces, last, if_pos hfirst, if_pos hfirst⟩
    · rw [if_neg hfirst, if_neg hfirst]
      cases pieces with
      | nil => exact ⟨[], first :: last, rfl, rfl⟩
      | cons piece pieces => exact ⟨(first :: piece) :: pieces, last, rfl, rfl⟩

/-- One more carriage return in front of a newline changes nothing that is read. -/
theorem tokens?_lines_return (before rest : List UInt8) :
    (lines (before ++ carriageReturn :: newline :: rest)).map tokens? =
      (lines (before ++ newline :: rest)).map tokens? := by
  obtain ⟨pieces, last, hbefore, hreturn⟩ :=
    exists_splitOn_concat (by decide : carriageReturn ≠ newline) before
  have hlines := lines_newline (before ++ [carriageReturn]) rest
  rw [List.append_assoc] at hlines
  change lines (before ++ carriageReturn :: newline :: rest) = _ at hlines
  rw [hlines, lines_newline, hbefore, hreturn]
  simp only [List.map_append, List.map_singleton, tokens?_dropReturn_append_return]

end DiceNotation.Prompt
