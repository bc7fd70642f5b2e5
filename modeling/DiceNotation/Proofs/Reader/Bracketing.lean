import DiceNotation.Proofs.Evaluation.Bounded
import DiceNotation.Proofs.Reader.FillingIn

/-! Brackets around all the tokens. In the brackets the tokens are read as they are outside,
for the reader does not look at the groups around; what is different is only what happens to
the tokens left over. Outside they are left alone. In brackets they are offered to the group
around, which goes on if it can, with what was read as an operand: the closing bracket of a
group is skipped where it is found and not looked for elsewhere. -/

namespace DiceNotation

namespace Token

/-- Whether every closing bracket has a partner in front of it and every opening one behind
it, `n` being open at the start. -/
def balanced : Nat → List Token → Bool
  | n, [] => n == 0
  | n, leftParen :: ts => balanced (n + 1) ts
  | 0, rightParen :: _ => false
  | n + 1, rightParen :: ts => balanced n ts
  | n, _ :: ts => balanced n ts

end Token

namespace Expr

open Token (balanced nesting openAfter peak)

theorem Group.openAfter_of_extend? {g g' : Group} {x : Expr} {t : Token}
    (h : g.extend? x t = some g') (n : Nat) : openAfter n t = n := by
  cases t <;> first | rfl | contradiction

/-- A group with nothing pending takes every operator and `d`. -/
theorem Group.extend?_empty_eq_none {x : Expr} {t : Token} :
    ({} : Group).extend? x t = none ↔ t.isInner = false := by
  cases t <;> simp [extend?, awaitSides?, Token.isInner, Token.operator?]

namespace Reader

variable {limit limit' floor : Nat} {r r' : Reader} {t : Token}

/-! ### Groups around -/

/-- The reader with further groups around all that it has open. -/
def within (base : List Group) (r : Reader) : Reader := { r with outer := r.outer ++ base }

theorem depth_within (base : List Group) (r : Reader) :
    (r.within base).depth = r.depth + base.length := List.length_append

theorem begin_within (base : List Group) (r : Reader) (ts : List Token) :
    (r.within base).begin (limit + base.length) ts =
      ((r.begin limit ts).1.within base, (r.begin limit ts).2) := by
  cases ts with
  | nil => rfl
  | cons t ts =>
    cases t with
    | leftParen =>
      by_cases hlt : r.depth < limit
      · have hlt' : (r.within base).depth < limit + base.length := by
          rw [depth_within]
          omega
        rw [begin_leftParen hlt, begin_leftParen hlt']
        rfl
      · have hlt' : ¬(r.within base).depth < limit + base.length := by
          rw [depth_within]
          omega
        rw [begin_leftParen_of_not_lt hlt, begin_leftParen_of_not_lt hlt']
        rfl
    | dice =>
      cases hg : r.group.awaitSides? (.literal 1) with
      | some g => simp only [begin, within, hg]
      | none => simp only [begin, within, fillIn, hg]
    | integer | rightParen | plus | minus | star | slash | unknown => rfl

theorem proceed?_within (base : List Group) {x : Expr} {ts us : List Token}
    (h : r.proceed? x ts = some (r', us)) :
    (r.within base).proceed? x ts = some (r'.within base, us) := by
  obtain ⟨g, outer, operand⟩ := r
  cases hg : ts.head?.bind (g.extend? x) with
  | some g' =>
    simp only [proceed?, hg, Option.some.injEq, Prod.mk.injEq] at h
    obtain ⟨rfl, rfl⟩ := h
    simp only [proceed?, within, hg]
  | none =>
    cases outer with
    | nil =>
      simp only [proceed?, hg] at h
      contradiction
    | cons next outer =>
      simp only [proceed?, hg, Option.some.injEq, Prod.mk.injEq] at h
      obtain ⟨rfl, rfl⟩ := h
      exact proceed?_of_complete hg (outer ++ base) operand

theorem move?_within (base : List Group) {ts us : List Token}
    (h : r.move? limit ts = some (r', us)) :
    (r.within base).move? (limit + base.length) ts = some (r'.within base, us) := by
  cases hx : r.operand with
  | none =>
    simp only [move?, hx, Option.some.injEq] at h
    have hmove : (r.within base).operand = none := hx
    simp only [move?, hmove, begin_within, h]
  | some x =>
    simp only [move?, hx] at h
    have hmove : (r.within base).operand = some x := hx
    simp only [move?, hmove, proceed?_within base h]

theorem Reads.within {a b : Reader × List Token} (h : Reads limit floor a b)
    (base : List Group) :
    Reads (limit + base.length) (floor + base.length) (a.1.within base, a.2)
      (b.1.within base, b.2) := by
  let lift (a : Reader × List Token) : Reader × List Token := (a.1.within base, a.2)
  refine Relation.ReflTransGen.lift lift (fun a b hm => ⟨move?_within base hm.1, ?_⟩) _ _ h
  rw [depth_within]
  exact Nat.add_le_add_right hm.2 _

/-! ### One group around -/

/-- A group in brackets is read to its end, and then the one around it goes on. -/
theorem readWithin_leftParen (limit : Nat) (ts : List Token) :
    readWithin (limit + 1) (.leftParen :: ts) =
      run (limit + 1) { operand := some (readWithin limit ts).1 }
        (skipClose (readWithin limit ts).2) := by
  obtain ⟨g, x, rest, hreads, hcomplete, hread⟩ := exists_reads_readWithin limit ts
  have hopen : move? (limit + 1) {} (.leftParen :: ts) = some (within [{}] {}, ts) :=
    congrArg some (begin_leftParen (Nat.succ_pos limit) ts)
  have hinside := (hreads.within [{}]).run_eq
  have hclose : move? (limit + 1) (within [{}] { group := g, operand := some x }) rest =
      some ({ operand := some (g.close x) }, skipClose rest) :=
    proceed?_of_complete hcomplete [] (some x)
  rw [readWithin, run_move hopen, hread]
  exact hinside.trans (run_move hclose)

/-! ### Enough groups -/

/-- A group is open for a bracket of its own, so no more are open than brackets. -/
theorem length_outer_le_of_step? (h : r.step? limit t = some r') :
    r'.outer.length ≤ openAfter r.outer.length t := by
  cases takes_of_step? h with
  | integer | leftParen | oneDie => exact Nat.le_refl _
  | follow h =>
    by_cases ht : t = .rightParen
    · subst ht
      obtain ⟨next, outer, houter, rfl⟩ := exists_of_follow?_rightParen h
      rw [houter]
      exact Nat.le_refl _
    · obtain ⟨-, hsuffix, g, x, hg⟩ := exists_extend?_of_follow? h ht
      rw [Group.openAfter_of_extend? hg]
      exact hsuffix.length_le

theorem step?_limit (h : t = .leftParen → r.outer.length < limit ∧ r.outer.length < limit') :
    r.step? limit t = r.step? limit' t := by
  cases t with
  | leftParen =>
    obtain ⟨hlt, hlt'⟩ := h rfl
    simp only [step?, hlt, hlt']
  | integer | dice | rightParen | plus | minus | star | slash | unknown => rfl

/-- The limit on open groups has no influence where the brackets keep to it. -/
theorem run_limit {n : Nat} {ts : List Token} (hr : r.outer.length ≤ n) (h : peak n ts ≤ limit)
    (h' : peak n ts ≤ limit') : r.run limit ts = r.run limit' ts := by
  induction ts generalizing r n with
  | nil => rfl
  | cons t ts ih =>
    rw [Token.peak_cons] at h h'
    have hdeep := Token.le_peak (openAfter n t) ts
    have hstep : r.step? limit t = r.step? limit' t := by
      refine step?_limit ?_
      rintro rfl
      simp only [openAfter] at hdeep h h'
      omega
    rw [run, run, hstep]
    cases hn : r.step? limit' t with
    | none => rfl
    | some next =>
      have hle := Nat.le_trans (length_outer_le_of_step? hn) (Token.openAfter_le_of_le hr t)
      exact ih hle (by omega) (by omega)

end Reader

/-! ### Brackets around all -/

theorem countP_skipClose (ts : List Token) :
    (Reader.skipClose ts).countP Token.isInner = ts.countP Token.isInner := by
  unfold Reader.skipClose
  split
  · rfl
  · rfl

theorem read_leftParen {ts : List Token} (h : nesting ts < maxDepth) :
    read (.leftParen :: ts) =
      Reader.run maxDepth { operand := some (ofTokens ts) } (Reader.skipClose (read ts).2) := by
  have hread : readWithin (maxDepth - 1) ts = read ts :=
    Reader.run_limit (Nat.le_refl 0) (Nat.le_sub_one_of_lt h) (Nat.le_of_lt h)
  have hopen := Reader.readWithin_leftParen (maxDepth - 1) ts
  rwa [hread] at hopen

/-- What is read on from is part of a larger tree. -/
theorem size_lt_of_read_on {ts us : List Token} {t : Token} (h : nesting ts < maxDepth)
    (ht : t.isInner = true) (hrest : Reader.skipClose (read ts).2 = t :: us) :
    (ofTokens ts).size < (ofTokens (.leftParen :: ts)).size := by
  let e := ofTokens ts
  have hne : ({} : Group).extend? e t ≠ none := by
    rw [ne_eq, Group.extend?_empty_eq_none, ht]
    exact Bool.noConfusion
  obtain ⟨g, hg⟩ := Option.ne_none_iff_exists'.1 hne
  have hstep : Reader.step? maxDepth { operand := some e } t = some { group := g } :=
    Reader.follow?_of_extend? hg []
  have hread : read (.leftParen :: ts) = Reader.run maxDepth { group := g } us := by
    rw [read_leftParen h, hrest, Reader.run, hstep]
  -- No inner node is lost: `t` was left over by the one reading and is a node of the other.
  have hleft : (read (.leftParen :: ts)).2.countP Token.isInner ≤ us.countP Token.isInner := by
    rw [hread]
    exact (Reader.run_suffix maxDepth _ us).sublist.countP_le
  have hinside := (size_add_leftover ts).1
  rw [← countP_skipClose, hrest, List.countP_cons_of_pos ht] at hinside
  have hbracketed := (size_add_leftover (.leftParen :: ts)).1
  rw [List.countP_cons_of_neg (by decide)] at hbracketed
  omega

/-- Brackets around all the tokens make one operand of what is read of them, and reading goes
on behind it with the tokens left over, a closing bracket in front of them being skipped. So
the brackets make a difference exactly where an operator or a `d` comes next. -/
theorem read_bracketed {ts : List Token} (h : nesting ts < maxDepth) :
    let bracketed := ofTokens (.leftParen :: (ts ++ [.rightParen]))
    let rest := Reader.skipClose (read ts).2
    bracketed = (Reader.run maxDepth { operand := some (ofTokens ts) } rest).1 ∧
      (bracketed = ofTokens ts ↔ ∀ t ∈ rest.head?, t.isInner = false) := by
  intro bracketed rest
  have hclose : bracketed = ofTokens (.leftParen :: ts) :=
    ofTokens_append_rightParens (.leftParen :: ts) 1
  have hread : bracketed = (Reader.run maxDepth { operand := some (ofTokens ts) } rest).1 :=
    hclose.trans (congrArg Prod.fst (read_leftParen h))
  refine ⟨hread, fun hsame t ht => ?_, fun hrest => ?_⟩
  · obtain ⟨us, hus⟩ := List.head?_eq_some_iff.1 ht
    cases hinner : t.isInner with
    | false => rfl
    | true =>
      have hlt := size_lt_of_read_on h hinner hus
      rw [← hclose, hsame] at hlt
      exact absurd hlt (Nat.lt_irrefl _)
  · have hcomplete : Reader.Complete {} (ofTokens ts) rest := by
      cases hhead : rest.head? with
      | none => simp only [Reader.Complete, hhead, Option.bind_none]
      | some t =>
        simp only [Reader.Complete, hhead, Option.bind_some]
        exact Group.extend?_empty_eq_none.2 (hrest t hhead)
    rw [hread, Reader.run_of_complete hcomplete]
    rfl

/-- `( 1 2 ) + 3`, where the sum is left over with the second operand. -/
theorem read_bracketed_second_operand :
    let ts : List Token :=
      [.leftParen, .integer 1, .integer 2, .rightParen, .plus, .integer 3]
    nesting ts < maxDepth ∧ ofTokens ts = .literal 1 ∧
      Reader.skipClose (read ts).2 = [.integer 2, .rightParen, .plus, .integer 3] ∧
      ofTokens (.leftParen :: (ts ++ [.rightParen])) = ofTokens ts := by
  intro ts
  have hnesting : nesting ts < maxDepth := by decide
  have hread : ofTokens ts = .literal 1 := by decide
  have hrest : Reader.skipClose (read ts).2 = [.integer 2, .rightParen, .plus, .integer 3] := by
    decide
  refine ⟨hnesting, hread, hrest, (read_bracketed hnesting).2.2 fun t ht => ?_⟩
  rw [hrest] at ht
  obtain rfl := Option.some.inj ht
  rfl

/-- Brackets around `2 d 3 d 4` make its second `d` a roll of the first one's dice, and brackets
around `( 2 d 3 d 4 ) + 5`, where that `d` has ended the group, bring in the sum. -/
theorem brackets_regroup_dice :
    let ts : List Token := [.integer 2, .dice, .integer 3, .dice, .integer 4]
    let us : List Token := .leftParen :: (ts ++ [.rightParen, .plus, .integer 5])
    let once : Expr := .dice (.literal 2) (.literal 3)
    let twice : Expr := .dice once (.literal 4)
    (balanced 0 ts = true ∧ nesting ts < maxDepth ∧ ofTokens ts = once ∧
      ofTokens (.leftParen :: (ts ++ [.rightParen])) = twice ∧ twice ≠ once) ∧
    balanced 0 us = true ∧ nesting us < maxDepth ∧ ofTokens us = twice ∧
      ofTokens (.leftParen :: (us ++ [.rightParen])) = .binary .add twice (.literal 5) := by
  decide

end Expr

end DiceNotation
