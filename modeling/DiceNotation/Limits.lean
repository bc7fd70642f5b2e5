import DiceNotation.Dice.Sides

/-! Bounds on every roll, whatever its operands came to: a count is brought into
`0 ..= maxCount`, a number of sides into `1 ..= maxSides`. The bounds and what they
are put on are words of different widths, so a word is clamped where both fit and
converted afterwards. -/

namespace DiceNotation

/-! ### Words of other widths -/

/-- The word between two others, or the one it lies beyond. -/
def clamp (low high x : Int64) : Int64 := if x < low then low else if high < x then high else x

theorem toInt_clamp {low high : Int64} (h : low ≤ high) (x : Int64) :
    (clamp low high x).toInt = min (max x.toInt low.toInt) high.toInt := by
  rw [Int64.le_iff_toInt_le] at h
  unfold clamp
  split
  · next hlow =>
    rw [Int64.lt_iff_toInt_lt] at hlow
    omega
  · next hlow =>
    rw [Int64.lt_iff_toInt_lt] at hlow
    split
    · next hhigh =>
      rw [Int64.lt_iff_toInt_lt] at hhigh
      omega
    · next hhigh =>
      rw [Int64.lt_iff_toInt_lt] at hhigh
      omega

/-- Words below the sign bit mean the same with and without a sign. -/
theorem toInt_toInt64 {n : UInt64} (h : n ≤ Int64.maxValue.toUInt64) :
    n.toInt64.toInt = n.toNat := by
  have hlt : n.toNat < 2 ^ 63 := Nat.lt_succ_of_le (UInt64.le_iff_toNat_le.1 h)
  have hn : n.toInt64 = Int64.ofNat n.toNat := by
    rw [← UInt64.toInt64_ofNat', UInt64.ofNat_toNat]
  rw [hn, Int64.toInt_ofNat_of_lt hlt]

theorem Sides.toInt_toInt64 (s : Sides) : s.toUInt32.toUInt64.toInt64.toInt = s.toNat := by
  have hs : s.toUInt32.toUInt64.toNat = s.toNat := UInt32.toNat_toUInt64 s.toUInt32
  have hmax : UInt32.size ≤ Int64.maxValue.toUInt64.toNat := by decide
  have hle : s.toUInt32.toUInt64 ≤ Int64.maxValue.toUInt64 := by
    rw [UInt64.le_iff_toNat_le, hs]
    exact Nat.le_trans (Nat.le_of_lt s.toNat_lt) hmax
  rw [DiceNotation.toInt_toInt64 hle, hs]

/-- The same number with a sign, if there is one. -/
def signed? (n : UInt64) : Option Int64 :=
  if n ≤ Int64.maxValue.toUInt64 then some n.toInt64 else none

theorem toInt_getD_signed? (n : UInt64) :
    ((signed? n).getD Int64.maxValue).toInt = min (n.toNat : Int) Int64.maxValue.toInt := by
  have hmax : (Int64.maxValue.toUInt64.toNat : Int) = Int64.maxValue.toInt := rfl
  unfold signed?
  split
  · next h =>
    rw [Option.getD_some, toInt_toInt64 h]
    rw [UInt64.le_iff_toNat_le] at h
    omega
  · next h =>
    rw [Option.getD_none]
    rw [UInt64.le_iff_toNat_le] at h
    omega

/-- The same number without a sign, if there is one. -/
def unsigned? (x : Int64) : Option UInt64 := if x < 0 then none else some x.toUInt64

theorem toNat_getD_unsigned? {x : Int64} (h : 0 ≤ x.toInt) (n : UInt64) :
    (((unsigned? x).getD n).toNat : Int) = x.toInt := by
  have hx : 0 ≤ x := Int64.le_iff_toInt_le.2 h
  have hlt : ¬x < 0 := fun hlt => Int.not_lt.2 h (Int64.lt_iff_toInt_lt.1 hlt)
  rw [unsigned?, if_neg hlt, Option.getD_some, Int64.toNat_toUInt64_of_le hx,
    Int64.cast_toNatClampNeg x hx]

/-- A die of that many sides, if there is one. -/
def Sides.ofInt64? (x : Int64) : Option Sides :=
  if h : 0 < x.toNatClampNeg ∧ x.toNatClampNeg < UInt32.size then
    some (Sides.ofNat x.toNatClampNeg h.1 h.2)
  else none

theorem Sides.toNat_getD_ofInt64? {x : Int64} (h : 1 ≤ x.toInt) (hlt : x.toInt < UInt32.size)
    (s : Sides) : (((ofInt64? x).getD s).toNat : Int) = x.toInt := by
  have hx : (x.toNatClampNeg : Int) = x.toInt :=
    Int64.cast_toNatClampNeg x (Int64.le_iff_toInt_le.2 (Int.le_trans (by decide) h))
  rw [ofInt64?, dif_pos ⟨by omega, by omega⟩, Option.getD_some, Sides.toNat_ofNat, hx]

/-! ### Limits -/

/-- The sides of the greatest die, unless another limit is set. -/
def Limits.defaultMaxSides : Sides := Sides.ofNat 1000 (by decide) (by decide)

structure Limits where
  maxCount : UInt64 := 100
  maxSides : Sides := Limits.defaultMaxSides
  deriving DecidableEq, Repr

namespace Limits

def clampCount (L : Limits) (count : Int64) : UInt64 :=
  (unsigned? (clamp 0 ((signed? L.maxCount).getD Int64.maxValue) count)).getD L.maxCount

def clampSides (L : Limits) (sides : Int64) : Sides :=
  (Sides.ofInt64? (clamp 1 L.maxSides.toUInt32.toUInt64.toInt64 sides)).getD L.maxSides

/-- The count is exact also where the limit does not fit a word with a sign. -/
theorem toNat_clampCount (L : Limits) (count : Int64) :
    ((L.clampCount count).toNat : Int) = min (max count.toInt 0) L.maxCount.toNat := by
  have hmax := toInt_getD_signed? L.maxCount
  rw [Int64.toInt_maxValue] at hmax
  have hlow : (0 : Int64) ≤ (signed? L.maxCount).getD Int64.maxValue := by
    rw [Int64.le_iff_toInt_le, hmax, Int64.toInt_zero]
    omega
  have hclamp := toInt_clamp hlow count
  rw [hmax, Int64.toInt_zero] at hclamp
  have hlt := count.toInt_lt
  unfold clampCount
  rw [toNat_getD_unsigned? (by omega), hclamp]
  omega

theorem toNat_clampSides (L : Limits) (sides : Int64) :
    ((L.clampSides sides).toNat : Int) = min (max sides.toInt 1) L.maxSides.toNat := by
  have hpos := L.maxSides.toNat_pos
  have hlt := L.maxSides.toNat_lt
  have hmax := L.maxSides.toInt_toInt64
  have hlow : (1 : Int64) ≤ L.maxSides.toUInt32.toUInt64.toInt64 := by
    rw [Int64.le_iff_toInt_le, hmax, Int64.toInt_one]
    omega
  have hclamp := toInt_clamp hlow sides
  rw [hmax, Int64.toInt_one] at hclamp
  unfold clampSides
  rw [Sides.toNat_getD_ofInt64? (by omega) (by omega), hclamp]

theorem clampCount_le (L : Limits) (count : Int64) :
    (L.clampCount count).toNat ≤ L.maxCount.toNat := by
  have := L.toNat_clampCount count
  omega

theorem clampSides_le (L : Limits) (sides : Int64) :
    (L.clampSides sides).toNat ≤ L.maxSides.toNat := by
  have := L.toNat_clampSides sides
  omega

def text (L : Limits) : String :=
  "Limits \x7b max_count: " ++ toString L.maxCount.toNat ++
    ", max_sides: " ++ L.maxSides.text ++ " \x7d"

end Limits

end DiceNotation
