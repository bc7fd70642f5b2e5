import DiceNotation.Proofs.Reader.Grammar
import DiceNotation.Proofs.Reader.Steps

/-! Every written expression is read back, to its last token, so no two expressions
are written alike. At each level the reader starts from a group with nothing pending
at that level or a tighter one, and ends with the expression in the group's hands. -/

namespace DiceNotation

open DiceNotation.Expr (Group Reader Written)
open Token (nesting peak)

variable {g g₀ : Group} {x e : Expr} {outer : List Group} {limit : Nat}

namespace Level

/-! ### What a level starts from and ends with -/

/-- Nothing is pending at the level or at a tighter one. -/
def Free (g : Group) : Level → Prop
  | factor => True
  | dice => g.count = none
  | product => g.product = none ∧ g.count = none
  | sum => g.sum = none ∧ g.product = none ∧ g.count = none

/-- At the level, `g` makes `e` of the operand `x`; at looser levels it has pending
what `g₀` had. -/
def Holds (g₀ g : Group) (x e : Expr) : Level → Prop
  | factor => g = g₀ ∧ x = e
  | dice => g.sum = g₀.sum ∧ g.product = g₀.product ∧ g.factor x = e
  | product => g.sum = g₀.sum ∧ g.term x = e
  | sum => g.close x = e

/-- With nothing pending at a level, it hands on what it is given. -/
theorem Holds.lift {l : Level} (h : l.tighter.Holds g₀ g x e) (hf : l.Free g₀) :
    l.Holds g₀ g x e := by
  cases l with
  | factor => exact h
  | dice =>
    obtain ⟨rfl, rfl⟩ := h
    refine ⟨rfl, rfl, ?_⟩
    rw [Group.factor, show g.count = none from hf]
  | product =>
    obtain ⟨hs, hp, rfl⟩ := h
    refine ⟨hs, ?_⟩
    rw [Group.term, hp, hf.1, Group.complete]
  | sum =>
    obtain ⟨hs, rfl⟩ := h
    rw [Holds, Group.close, hs, hf.1, Group.complete]

end Level

namespace Expr

/-! ### Reading a word -/

theorem Written.peak_append_cons {l : Level} {u : List Token} (hu : Written l u e) {t : Token}
    (ht : Token.openAfter outer.length t = outer.length) (v : List Token) :
    peak outer.length (u ++ t :: v) = max (peak outer.length u) (peak outer.length v) := by
  have := Token.le_peak outer.length v
  rw [Token.peak_append, hu.opened_eq, Token.peak_cons, ht]
  omega

theorem Written.steps? {l : Level} {w : List Token} (h : Written l w e) (g₀ : Group)
    (outer : List Group) (hf : l.Free g₀) (hp : peak outer.length w ≤ limit) :
    ∃ g x, l.Holds g₀ g x e ∧ Reader.steps? limit { group := g₀, outer } w =
      some { group := g, outer, operand := some x } := by
  induction h generalizing g₀ outer with
  | integer x => exact ⟨g₀, .literal x, ⟨rfl, rfl⟩, rfl⟩
  | @bracket w e he ih =>
    obtain ⟨hlt, hin⟩ := Token.peak_bracket_le hp
    obtain ⟨g, x, hh, hs⟩ := ih {} (g₀ :: outer) ⟨rfl, rfl, rfl⟩ hin
    exact ⟨g₀, g.close x, ⟨rfl, hh⟩, Reader.steps?_bracket hlt hs⟩
  | ofFactor he ih =>
    obtain ⟨g, x, hh, hs⟩ := ih g₀ outer trivial hp
    exact ⟨g, x, hh.lift (l := .dice) hf, hs⟩
  | ofDice he ih =>
    obtain ⟨g, x, hh, hs⟩ := ih g₀ outer hf.2 hp
    exact ⟨g, x, hh.lift (l := .product) hf, hs⟩
  | ofProduct he ih =>
    obtain ⟨g, x, hh, hs⟩ := ih g₀ outer hf.2 hp
    exact ⟨g, x, hh.lift (l := .sum) hf, hs⟩
  | @dice u v c s hc hs ihc ihs =>
    rw [hc.peak_append_cons rfl] at hp
    obtain ⟨g, x, ⟨rfl, rfl⟩, hu⟩ := ihc g₀ outer trivial (by omega)
    obtain ⟨g', y, ⟨rfl, rfl⟩, hv⟩ := ihs { g with count := some x } outer trivial (by omega)
    have hd : Reader.step? limit { group := g, outer, operand := some x } .dice =
        some { group := { g with count := some x }, outer } := by
      refine Reader.follow?_of_extend? ?_ outer
      simp only [Group.extend?, Group.awaitSides?, show g.count = none from hf]
    exact ⟨{ g with count := some x }, y, ⟨rfl, rfl, rfl⟩, Reader.steps?_between hu hd hv⟩
  | @oneDie v s hs ih =>
    obtain ⟨g, y, ⟨rfl, rfl⟩, hv⟩ := ih { g₀ with count := some (.literal 1) } outer
      trivial (by simpa [Token.openAfter, Token.le_peak] using hp)
    have hd : Reader.step? limit { group := g₀, outer } .dice =
        some { group := { g₀ with count := some (.literal 1) }, outer } := by
      simp only [Reader.step?, Group.awaitSides?, show g₀.count = none from hf]
    exact ⟨{ g₀ with count := some (.literal 1) }, y, ⟨rfl, rfl, rfl⟩,
      Reader.steps?_between (Reader.steps?_nil _) hd hv⟩
  | @product u v l r t op hl ht hop hr ihl ihr =>
    rw [hl.peak_append_cons (Token.openAfter_operator ht _)] at hp
    obtain ⟨g, x, ⟨hsum, rfl⟩, hu⟩ := ihl g₀ outer hf (by omega)
    obtain ⟨g', y, ⟨hsum', hprod', rfl⟩, hv⟩ := ihr (g.awaitFactor x op) outer rfl
      (by omega)
    have hop : Reader.step? limit { group := g, outer, operand := some x } t =
        some { group := g.awaitFactor x op, outer } :=
      Reader.follow?_of_extend? (Group.extend?_of_level_product ht hop g x) outer
    refine ⟨g', y, ⟨hsum'.trans hsum, ?_⟩, Reader.steps?_between hu hop hv⟩
    rw [Group.term, hprod', Group.awaitFactor, Group.complete]
  | @sum u v l r t op hl ht hop hr ihl ihr =>
    rw [hl.peak_append_cons (Token.openAfter_operator ht _)] at hp
    obtain ⟨g, x, rfl, hu⟩ := ihl g₀ outer hf (by omega)
    obtain ⟨g', y, ⟨hsum', rfl⟩, hv⟩ := ihr (g.awaitTerm x op) outer ⟨rfl, rfl⟩ (by omega)
    have hop : Reader.step? limit { group := g, outer, operand := some x } t =
        some { group := g.awaitTerm x op, outer } :=
      Reader.follow?_of_extend? (Group.extend?_of_level_sum ht hop g x) outer
    refine ⟨g', y, ?_, Reader.steps?_between hu hop hv⟩
    rw [Level.Holds, Group.close, hsum', Group.awaitTerm, Group.complete]

theorem readWithin_of_written {w : List Token} (h : Written .sum w e) (hn : nesting w ≤ limit) :
    readWithin limit w = (e, []) := by
  obtain ⟨g, x, hh, hs⟩ := h.steps? {} [] ⟨rfl, rfl, rfl⟩ hn
  have hrun := Reader.run_of_steps? hs []
  rw [List.append_nil] at hrun
  rw [readWithin, hrun]
  exact congrArg (·, []) hh

/-! ### Written expressions are read back -/

/-- A written expression is read to its last token, up to the greatest nesting; at any
nesting, what is written determines the expression. -/
theorem read_of_written {w : List Token} (h : Written .sum w e) :
    (nesting w ≤ maxDepth → read w = (e, [])) ∧ ∀ e', Written .sum w e' → e' = e := by
  constructor
  · exact readWithin_of_written h
  · intro e' h'
    have hread := readWithin_of_written h (Nat.le_refl (nesting w))
    have hread' := readWithin_of_written h' (Nat.le_refl (nesting w))
    exact congrArg Prod.fst (hread'.symm.trans hread)

/-- `((1)) d (6) - 2 - d 4 * 3` -/
theorem read_of_written_differences :
    let w : List Token := [.leftParen, .leftParen, .integer 1, .rightParen, .rightParen, .dice,
      .leftParen, .integer 6, .rightParen, .minus, .integer 2, .minus, .dice, .integer 4, .star,
      .integer 3]
    let e : Expr := .binary .sub
      (.binary .sub (.dice (.literal 1) (.literal 6)) (.literal 2))
      (.binary .mul (.dice (.literal 1) (.literal 4)) (.literal 3))
    Written .sum w e ∧ nesting w ≤ maxDepth ∧ read w = (e, []) := by
  intro w e
  have operand (x : Int64) : Written .sum [.integer x] (.literal x) :=
    .ofProduct (.ofDice (.ofFactor (.integer x)))
  have roll : Written .dice _ (.dice (.literal 1) (.literal 6)) :=
    .dice (.bracket (.ofProduct (.ofDice (.ofFactor (.bracket (operand 1))))))
      (.bracket (operand 6))
  have product : Written .product _ (.binary .mul (.dice (.literal 1) (.literal 4)) (.literal 3)) :=
    .product (t := .star) (.ofDice (.oneDie (.integer 4))) rfl rfl (.ofFactor (.integer 3))
  have difference : Written .sum _ (.binary .sub (.dice (.literal 1) (.literal 6)) (.literal 2)) :=
    .sum (t := .minus) (.ofProduct (.ofDice roll)) rfl rfl (.ofDice (.ofFactor (.integer 2)))
  have written : Written .sum w e := .sum (t := .minus) difference rfl rfl product
  have shallow : nesting w ≤ maxDepth := by decide
  exact ⟨written, shallow, (read_of_written written).1 shallow⟩

end Expr

end DiceNotation
