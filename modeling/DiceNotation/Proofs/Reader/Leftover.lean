import DiceNotation.Proofs.Reader.Steps

/-! What the reader leaves over has no influence on what it reads. It looks at one token
beyond those that it takes, and at that token only to see that no group takes it; an operand
next to an operand is such a token, for the two are not multiplied. -/

namespace DiceNotation.Expr

namespace Reader

variable {limit : Nat} {r r' : Reader} {t : Token}

/-! ### Tokens and operands -/

theorem step?_unknown (r : Reader) : r.step? limit .unknown = none :=
  (step?_of_lacksOperand (t := .unknown) trivial r).trans
    (follow?_eq_none (fun _ _ => rfl) Token.noConfusion _ _ _)

/-- After an operand no other one is taken. -/
theorem step?_of_beginsOperand (hr : r.operand ≠ none) (ht : t.BeginsOperand) :
    r.step? limit t = none := by
  obtain ⟨x, hx⟩ := Option.ne_none_iff_exists'.1 hr
  cases t with
  | integer y =>
    simp only [step?, hx]
    exact follow?_eq_none (fun _ _ => rfl) Token.noConfusion _ _ _
  | leftParen =>
    simp only [step?, hx]
    exact follow?_eq_none (fun _ _ => rfl) Token.noConfusion _ _ _
  | dice | rightParen | plus | minus | star | slash | unknown => contradiction

theorem operand_ne_none_of_step? (ht : t.EndsOperand) (h : r.step? limit t = some r') :
    r'.operand ≠ none := by
  cases takes_of_step? h with
  | integer hr x => exact Option.some_ne_none _
  | leftParen | oneDie => contradiction
  | follow h =>
    cases t with
    | integer x =>
      rw [follow?_eq_none (fun _ _ => rfl) Token.noConfusion] at h
      contradiction
    | rightParen =>
      obtain ⟨next, outer, -, rfl⟩ := exists_of_follow?_rightParen h
      exact Option.some_ne_none _
    | dice | leftParen | plus | minus | star | slash | unknown => contradiction

/-- Reading stops in front of an operand that follows an operand. -/
theorem run_adjacent {x y : Token} (hx : x.EndsOperand) (hy : y.BeginsOperand)
    (p : List Token) (r : Reader) (us : List Token) :
    (r.run limit (p ++ [x] ++ y :: us)).1 = (r.run limit (p ++ [x])).1 := by
  refine run_append_of_finish fun r' hr' => ?_
  obtain ⟨s, hs⟩ := exists_last_step hr' List.getLast?_concat
  have hstop : r'.step? limit y = none :=
    step?_of_beginsOperand (operand_ne_none_of_step? hx hs) hy
  simp only [run, hstop]

/-! ### Too many brackets -/

theorem steps?_leftParens {n k : Nat} (h : n + k ≤ limit) :
    steps? limit { outer := List.replicate n {} } (List.replicate k .leftParen) =
      some { outer := List.replicate (n + k) {} } := by
  induction k generalizing n with
  | zero => rfl
  | succ k ih =>
    have hopen : step? limit { outer := List.replicate n {} } .leftParen =
        some { outer := List.replicate (n + 1) {} } :=
      if_pos (by rw [List.length_replicate]; omega)
    rw [List.replicate_succ, steps?_cons, hopen, Option.bind_some, ih (by omega)]
    congr 3
    omega

theorem finish_replicate (n : Nat) :
    finish { outer := List.replicate n {} } = .literal 0 := by
  induction n with
  | zero => rfl
  | succ n ih => exact ih

/-- The bracket that would be one too many is left over. -/
theorem run_leftParens (us : List Token) :
    run limit {} (List.replicate limit .leftParen ++ .leftParen :: us) =
      (.literal 0, .leftParen :: us) := by
  have hsteps := steps?_leftParens (Nat.le_of_eq (Nat.zero_add limit))
  rw [Nat.zero_add] at hsteps
  have hfull : step? limit { outer := List.replicate limit {} } .leftParen = none :=
    if_neg (by simp)
  have hstop : ∀ t ∈ (Token.leftParen :: us).head?,
      step? limit { outer := List.replicate limit {} } t = none := by
    rintro t ht
    obtain rfl := Option.some.inj ht
    exact hfull
  have hread := run_of_stop hsteps hstop
  rwa [finish_replicate] at hread

end Reader

/-! ### Leftovers -/

/-- The tokens read are read alike without those left over, and in front of any others that
begin with the same one. Reading stops in front of an unknown token, of an operand that
follows an operand, and of the bracket that opens one group too many. -/
theorem read_consumed :
    (∀ ts, ∃ c, ts = c ++ (read ts).2 ∧ read c = (ofTokens ts, []) ∧
      ∀ us, us.head? = (read ts).2.head? → read (c ++ us) = (ofTokens ts, us)) ∧
    (∀ p us, ofTokens (p ++ .unknown :: us) = ofTokens p) ∧
    (∀ p x y us, x.EndsOperand → y.BeginsOperand →
      ofTokens (p ++ [x, y] ++ us) = ofTokens (p ++ [x])) ∧
    ∀ us, ofTokens (List.replicate (maxDepth + 1) .leftParen ++ us) = .literal 0 := by
  refine ⟨fun ts => ?_, fun p us => ?_, fun p x y us hx hy => ?_, fun us => ?_⟩
  · obtain ⟨c, r, hts, hsteps, hfinish, hstop⟩ := Reader.run_split maxDepth {} ts
    have hread : ofTokens ts = r.finish := hfinish
    have hrest (us : List Token) (h : us.head? = (read ts).2.head?) :
        read (c ++ us) = (ofTokens ts, us) := by
      rw [hread]
      exact Reader.run_of_stop hsteps fun t ht => hstop t (h ▸ ht)
    refine ⟨c, hts, ?_, hrest⟩
    rw [hread, ← List.append_nil c]
    exact Reader.run_of_stop hsteps (by simp)
  · refine Reader.run_append_of_finish fun r hr => ?_
    simp only [Reader.run, Reader.step?_unknown]
  · have hadjacent : ofTokens (p ++ [x] ++ y :: us) = ofTokens (p ++ [x]) :=
      Reader.run_adjacent hx hy p {} us
    rwa [List.append_assoc] at hadjacent ⊢
  · rw [List.replicate_succ', List.append_assoc]
    exact congrArg Prod.fst (Reader.run_leftParens us)

/-- `2 d 3 4 + 5`, and another text that goes on with a `4`. -/
theorem read_consumed_second_operand :
    let c : List Token := [.integer 2, .dice, .integer 3]
    let ts : List Token := c ++ [.integer 4, .plus, .integer 5]
    let us : List Token := [.integer 4, .unknown]
    let e : Expr := .dice (.literal 2) (.literal 3)
    read ts = (e, [.integer 4, .plus, .integer 5]) ∧ us.head? = (read ts).2.head? ∧
      read c = (e, []) ∧ read (c ++ us) = (e, us) ∧
      Token.EndsOperand (.integer 3) ∧ Token.BeginsOperand (.integer 4) ∧
      ofTokens ts = ofTokens c := by
  intro c ts us e
  have hread : read ts = (e, [.integer 4, .plus, .integer 5]) := by decide
  have he : ofTokens ts = e := congrArg Prod.fst hread
  have hends : Token.EndsOperand (.integer 3) := trivial
  have hbegins : Token.BeginsOperand (.integer 4) := trivial
  have hhead : us.head? = (read ts).2.head? := by rw [hread]; rfl
  obtain ⟨c', hts, hc, hrest⟩ := read_consumed.1 ts
  obtain rfl : c = c' := List.append_cancel_right (hread ▸ hts)
  rw [he] at hc hrest
  exact ⟨hread, hhead, hc, hrest us hhead, hends, hbegins,
    read_consumed.2.2.1 [.integer 2, .dice] _ _ [.plus, .integer 5] hends hbegins⟩

end DiceNotation.Expr
