import DiceNotation.Proofs.Reader.Leftover
import DiceNotation.Proofs.Reader.Moves

/-! What is missing may as well be written out: the zero of a missing operand, the one of a
`d` without a count, and the closing brackets of groups left open. The token in front of the
place tells what the reader waits for there, however deep it is and whatever was read before;
with the token written out the reader waits for the rest just as it does without it. -/

namespace DiceNotation.Expr

theorem Group.count_extend? {g g' : Group} {x : Expr} {t : Token}
    (h : g.extend? x t = some g') : g'.count = none ↔ t ≠ .dice := by
  cases t with
  | plus | minus | star | slash =>
    obtain rfl := Option.some.inj h
    exact ⟨fun _ => Token.noConfusion, fun _ => rfl⟩
  | dice =>
    simp only [extend?, awaitSides?] at h
    split at h
    · obtain rfl := Option.some.inj h
      simp
    · contradiction
  | integer | leftParen | rightParen | unknown => contradiction

namespace Reader

variable {limit : Nat} {r r' : Reader} {t : Token} {p q : List Token}

/-! ### What the reader waits for -/

/-- Only behind a `d` sides are due, which no count can begin. -/
theorem awaits_of_step? (ht : t.AwaitsOperand) (h : r.step? limit t = some r') :
    r'.operand = none ∧ (r'.group.count = none ↔ t ≠ .dice) := by
  cases takes_of_step? h with
  | integer => contradiction
  | leftParen => exact ⟨rfl, fun _ => Token.noConfusion, fun _ => rfl⟩
  | oneDie hr hg => exact ⟨hr, Group.count_extend? (t := .dice) hg⟩
  | follow h =>
    have hne : t ≠ .rightParen := by
      rintro rfl
      exact ht
    obtain ⟨hr, -, g, x, hg⟩ := exists_extend?_of_follow? h hne
    exact ⟨hr, Group.count_extend? hg⟩

theorem awaits_of_steps? (hp : ∀ t ∈ p.getLast?, t.AwaitsOperand)
    (h : steps? limit {} p = some r) :
    r.operand = none ∧ (r.group.count = none ↔ p.getLast? ≠ some .dice) := by
  cases hlast : p.getLast? with
  | none =>
    obtain rfl := List.getLast?_eq_none_iff.1 hlast
    obtain rfl := Option.some.inj h
    exact ⟨rfl, fun _ => nofun, fun _ => rfl⟩
  | some t =>
    obtain ⟨s, hs⟩ := exists_last_step h hlast
    obtain ⟨hr, hcount⟩ := awaits_of_step? (hp t hlast) hs
    exact ⟨hr, by rw [hcount, ne_eq, ne_eq, Option.some.injEq]⟩

/-! ### Writing it out -/

theorem run_zero (hr : r.operand = none)
    (hq : ∀ t ∈ q.head?, t.LacksOperand ∨ t = .dice ∧ r.group.count ≠ none) :
    r.run limit (.integer 0 :: q) = r.run limit q := by
  have hzero : r.step? limit (.integer 0) = some r.fillIn := by
    simp only [step?, hr, fillIn]
  rw [run, hzero]
  refine (run_fillIn hr fun t ht => ?_).symm
  rcases hq t ht with hlacks | ⟨rfl, hcount⟩
  · rw [step?_of_lacksOperand hlacks, step?_of_lacksOperand hlacks, hr]
    rfl
  · obtain ⟨c, hc⟩ := Option.ne_none_iff_exists'.1 hcount
    simp only [step?, hr, Group.awaitSides?, hc, fillIn]

theorem run_one (hr : r.operand = none) (hcount : r.group.count = none) :
    r.run limit (.integer 1 :: .dice :: q) = r.run limit (.dice :: q) := by
  let g : Group := { r.group with count := some (.literal 1) }
  have hone : r.step? limit (.integer 1) = some { r with operand := some (.literal 1) } := by
    simp only [step?, hr]
  have hextend : r.group.extend? (.literal 1) .dice = some g := by
    simp only [Group.extend?, Group.awaitSides?, hcount, g]
  have hgiven : step? limit { r with operand := some (.literal 1) } .dice =
      some { group := g, outer := r.outer } := follow?_of_extend? hextend r.outer
  have himplied : r.step? limit .dice = some { group := g, outer := r.outer } := by
    simp only [step?, hr, Group.awaitSides?, hcount, g]
  simp only [run, hone, hgiven, himplied]

/-- A closing bracket does what happens at the end anyway. -/
theorem run_rightParens (limit : Nat) (r : Reader) (n : Nat) :
    (r.run limit (List.replicate n .rightParen)).1 = r.finish := by
  induction n generalizing r with
  | zero => rfl
  | succ n ih =>
    rw [List.replicate_succ, run]
    cases h : r.step? limit .rightParen with
    | none => rfl
    | some next =>
      rw [step?_of_lacksOperand (t := .rightParen) trivial] at h
      obtain ⟨g, outer, houter, rfl⟩ := exists_of_follow?_rightParen h
      refine (ih _).trans ?_
      simp only [finish, houter, List.foldl_cons, Option.getD_some]

end Reader

theorem ofTokens_append_rightParens (ts : List Token) (n : Nat) :
    ofTokens (ts ++ List.replicate n .rightParen) = ofTokens ts :=
  Reader.run_append_of_finish fun r _ => Reader.run_rightParens maxDepth r n

/-- A zero may be written where an operand is missing, a one in front of a `d` that has no
count, and any number of closing brackets at the end. -/
theorem read_filled_in :
    (∀ p q : List Token, (∀ t ∈ p.getLast?, t.AwaitsOperand) →
      (∀ t ∈ q.head?, t.LacksOperand ∨ t = .dice ∧ p.getLast? = some .dice) →
      ofTokens (p ++ [.integer 0] ++ q) = ofTokens (p ++ q)) ∧
    (∀ p q : List Token, (∀ t ∈ p.getLast?, t.AwaitsOperand ∧ t ≠ .dice) →
      ofTokens (p ++ [.integer 1] ++ .dice :: q) = ofTokens (p ++ .dice :: q)) ∧
    ∀ (ts : List Token) (n : Nat), ofTokens (ts ++ List.replicate n .rightParen) = ofTokens ts := by
  refine ⟨fun p q hp hq => ?_, fun p q hp => ?_, ofTokens_append_rightParens⟩
  · rw [List.append_assoc]
    refine Reader.run_append_congr fun r hr => congrArg Prod.fst ?_
    obtain ⟨hoperand, hcount⟩ := Reader.awaits_of_steps? hp hr
    refine Reader.run_zero hoperand fun t ht => (hq t ht).imp_right fun ⟨hdice, hlast⟩ => ?_
    exact ⟨hdice, fun hnone => hcount.1 hnone hlast⟩
  · rw [List.append_assoc]
    refine Reader.run_append_congr fun r hr => congrArg Prod.fst ?_
    obtain ⟨hoperand, hcount⟩ := Reader.awaits_of_steps? (fun t ht => (hp t ht).1) hr
    exact Reader.run_one hoperand (hcount.2 fun hlast => (hp .dice hlast).2 rfl)

/-- `( 2 d d 4 * ( d 6`, where the sides between the two `d`s and the last count are missing. -/
theorem read_filled_in_between_dice :
    let p : List Token := [.leftParen, .integer 2, .dice]
    let q : List Token := [.dice, .integer 4, .star, .leftParen]
    let e : Expr := .binary .mul (.dice (.dice (.literal 2) (.literal 0)) (.literal 4))
      (.dice (.literal 1) (.literal 6))
    (∀ t ∈ p.getLast?, t.AwaitsOperand) ∧
      (∀ t ∈ q.head?, t.LacksOperand ∨ t = .dice ∧ p.getLast? = some .dice) ∧
      (∀ t ∈ (p ++ q).getLast?, t.AwaitsOperand ∧ t ≠ .dice) ∧
      ofTokens (p ++ [.integer 0] ++ (q ++ [.dice, .integer 6])) = e ∧
      ofTokens (p ++ q ++ [.integer 1] ++ [.dice, .integer 6]) = e ∧
      ofTokens (p ++ q ++ [.dice, .integer 6]) = e := by
  intro p q e
  have hp : ∀ t ∈ p.getLast?, t.AwaitsOperand := by
    rintro t ⟨⟩
    trivial
  have hq : ∀ t ∈ q.head?, t.LacksOperand ∨ t = .dice ∧ p.getLast? = some .dice := by
    rintro t ⟨⟩
    exact .inr ⟨rfl, rfl⟩
  have hpq : ∀ t ∈ (p ++ q).getLast?, t.AwaitsOperand ∧ t ≠ .dice := by
    rintro t ⟨⟩
    exact ⟨trivial, Token.noConfusion⟩
  have hread : ofTokens (p ++ q ++ [.dice, .integer 6]) = e := by decide
  have hzero := read_filled_in.1 p (q ++ [.dice, .integer 6]) hp hq
  have hone := read_filled_in.2.1 (p ++ q) [.integer 6] hpq
  exact ⟨hp, hq, hpq, hzero.trans hread, hone.trans hread, hread⟩

end DiceNotation.Expr
