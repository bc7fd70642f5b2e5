import DiceNotation.Operator
import Mathlib.Algebra.Group.Int.Defs
import Mathlib.Algebra.Group.Nat.Defs

/-! Arithmetic on words against arithmetic on integers. Whatever its operands, an operation
comes to the exact result, or to the end of the range of a word that the exact result lies
beyond. -/

namespace DiceNotation

/-! ### The range of a word -/

/-- There is a word for the integer. -/
def InRange (z : Int) : Prop := Int64.minValue.toInt ≤ z ∧ z ≤ Int64.maxValue.toInt

instance : DecidablePred InRange := fun _ => inferInstanceAs (Decidable (_ ∧ _))

theorem inRange_iff {z : Int} : InRange z ↔ -2 ^ 63 ≤ z ∧ z < 2 ^ 63 := by
  rw [InRange, Int64.toInt_minValue, Int64.toInt_maxValue]
  omega

theorem inRange_toInt (x : Int64) : InRange x.toInt :=
  ⟨Int64.le_iff_toInt_le.1 (Int64.minValue_le x), Int64.le_iff_toInt_le.1 (Int64.le_maxValue x)⟩

/-- The integer in the range of a word that is nearest to another one. -/
def saturate (z : Int) : Int := max Int64.minValue.toInt (min z Int64.maxValue.toInt)

theorem saturate_of_inRange {z : Int} (h : InRange z) : saturate z = z := by
  rw [saturate, Int.min_eq_left h.2, Int.max_eq_right h.1]

theorem saturate_of_not_inRange {z : Int} (h : ¬InRange z) :
    saturate z = (if z < 0 then Int64.minValue else Int64.maxValue).toInt := by
  rw [inRange_iff] at h
  have hmin := Int64.toInt_minValue
  have hmax := Int64.toInt_maxValue
  unfold saturate
  split <;> omega

theorem saturate_mono {y z : Int} (h : y ≤ z) : saturate y ≤ saturate z := by
  unfold saturate
  omega

/-! ### The four operations -/

namespace Saturating

/-- The test for overflow, which is the same for all operations. -/
theorem exceeds_iff (z : Int) :
    (decide (z ≥ 2 ^ (64 - 1)) || decide (z < -2 ^ (64 - 1))) = true ↔ ¬InRange z := by
  rw [Bool.or_eq_true, decide_eq_true_iff, decide_eq_true_iff, inRange_iff]
  omega

/-- An operation that wraps around is exact within the range; beyond it, the bound that
stands in has the sign of the exact result. -/
theorem toInt_bounded {exceeds negative : Bool} {wrapped : Int64} {z : Int}
    (hexceeds : exceeds = true ↔ ¬InRange z) (hwrapped : wrapped.toInt = z.bmod (2 ^ 64))
    (hsign : ¬InRange z → (negative = true ↔ z < 0)) :
    (if exceeds then bound negative else wrapped).toInt = saturate z := by
  by_cases hz : InRange z
  · have hrange := inRange_iff.1 hz
    rw [if_neg (fun h => hexceeds.1 h hz), hwrapped, saturate_of_inRange hz,
      Int.bmod_eq_of_le (by omega) (by omega)]
  · rw [if_pos (hexceeds.2 hz), bound, saturate_of_not_inRange hz]
    simp only [hsign hz]

variable (a b : Int64)

/-- A step that leaves the range starts on the side on which it leaves. -/
theorem neg_iff_of_not_inRange {x y : Int} (hx : InRange x) (hy : y.natAbs ≤ 2 ^ 63)
    (h : ¬InRange (x + y)) : x < 0 ↔ x + y < 0 := by
  rw [inRange_iff] at hx h
  omega

theorem natAbs_toInt_le : b.toInt.natAbs ≤ 2 ^ 63 := by
  have hb := inRange_iff.1 (inRange_toInt b)
  omega

theorem toInt_add : (add a b).toInt = saturate (a.toInt + b.toInt) := by
  refine toInt_bounded (exceeds_iff _) (Int64.toInt_add a b) fun h => ?_
  rw [decide_eq_true_iff, Int64.lt_iff_toInt_lt]
  exact neg_iff_of_not_inRange (inRange_toInt a) (natAbs_toInt_le b) h

theorem toInt_sub : (sub a b).toInt = saturate (a.toInt - b.toInt) := by
  refine toInt_bounded (exceeds_iff _) (Int64.toInt_sub a b) fun h => ?_
  have hb : (-b.toInt).natAbs ≤ 2 ^ 63 := by
    rw [Int.natAbs_neg]
    exact natAbs_toInt_le b
  rw [decide_eq_true_iff, Int64.lt_iff_toInt_lt]
  exact neg_iff_of_not_inRange (inRange_toInt a) hb h

/-- A product that is not zero is negative if one of its factors is, but not both. -/
theorem mul_neg_iff_bne {x y : Int} (h : x * y ≠ 0) :
    (decide (x < 0) != decide (y < 0)) = true ↔ x * y < 0 := by
  rw [bne_iff_ne, ne_eq, decide_eq_decide]
  rcases Int.lt_or_le x 0 with hx | hx <;> rcases Int.lt_or_le y 0 with hy | hy
  · have := Int.mul_pos_of_neg_of_neg hx hy
    omega
  · have := Int.mul_nonpos_of_nonpos_of_nonneg (Int.le_of_lt hx) hy
    omega
  · have := Int.mul_nonpos_of_nonneg_of_nonpos hx (Int.le_of_lt hy)
    omega
  · have := Int.mul_nonneg hx hy
    omega

theorem toInt_mul : (mul a b).toInt = saturate (a.toInt * b.toInt) := by
  refine toInt_bounded (exceeds_iff _) (Int64.toInt_mul a b) fun h => ?_
  have hne : a.toInt * b.toInt ≠ 0 := by
    intro hzero
    rw [hzero] at h
    exact h (by decide)
  simp only [Int64.lt_iff_toInt_lt, Int64.toInt_zero]
  exact mul_neg_iff_bne hne

/-- The quotient of two words is the quotient of their integers but for the least word
divided by `-1`, whose quotient no word is. -/
theorem toInt_div (hb : b ≠ 0) : (div a b).toInt = saturate (a.toInt.tdiv b.toInt) := by
  rw [div, if_neg hb]
  split
  · next h =>
    obtain ⟨rfl, rfl⟩ := h
    rfl
  · next h =>
    have hquotient : (a / b).toInt = a.toInt.tdiv b.toInt := by
      rcases Decidable.not_and_iff_not_or_not.1 h with ha | hb
      · exact Int64.toInt_div_of_ne_left a b ha
      · exact Int64.toInt_div_of_ne_right a b hb
    rw [← hquotient, saturate_of_inRange (inRange_toInt _)]

end Saturating

namespace Operator

/-- The operation on integers. A quotient is truncated toward zero, and zero where the
divisor is. -/
def exact : Operator → Int → Int → Int
  | add, x, y => x + y
  | sub, x, y => x - y
  | mul, x, y => x * y
  | div, x, y => if y = 0 then 0 else x.tdiv y

theorem toInt_apply (op : Operator) (a b : Int64) :
    (op.apply a b).toInt = saturate (op.exact a.toInt b.toInt) := by
  cases op with
  | add => exact Saturating.toInt_add a b
  | sub => exact Saturating.toInt_sub a b
  | mul => exact Saturating.toInt_mul a b
  | div =>
    by_cases hb : b = 0
    · subst hb
      rfl
    · have hne : b.toInt ≠ 0 := fun h => hb (Int64.toInt_inj.1 h)
      rw [exact, if_neg hne]
      exact Saturating.toInt_div a b hb

theorem toInt_apply_of_inRange {op : Operator} {a b : Int64}
    (h : InRange (op.exact a.toInt b.toInt)) :
    (op.apply a b).toInt = op.exact a.toInt b.toInt := by
  rw [toInt_apply, saturate_of_inRange h]

end Operator

end DiceNotation
