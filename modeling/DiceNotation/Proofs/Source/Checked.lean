import DiceNotation.Dice.Stepping
import DiceNotation.Proofs.Source.Repeated

/-! A stepping source under a check for overflow. It shows the faces of the stepping source
and notes the first overflow, where a computation that checks for it breaks off. From one on,
the count overflows as soon as its exact value does not fit a word. -/

namespace DiceNotation.Stepping

/-- A stepping source, and whether its count has overflowed. -/
structure Checked where
  stepping : Stepping
  overflowed : Bool := false
  deriving DecidableEq, Repr

namespace Checked

def roll (sides : Sides) : Draw Checked UInt32 := fun c =>
  (.ok (c.stepping.face sides),
    { stepping := c.stepping.advance, overflowed := c.overflowed || c.stepping.Overflows })

instance : Source Checked := { roll }

variable {sides : Sides} {n : Nat} {faces : List UInt32}

/-! ### Faces -/

theorem repeats {s t : Stepping} (h : (Stepping.roll sides).Repeats s faces t) (noted : Bool) :
    ∃ noted', (roll sides).Repeats ⟨s, noted⟩ faces ⟨t, noted'⟩ := by
  induction h generalizing noted with
  | nil s => exact ⟨noted, .nil _⟩
  | @cons s t u face faces hface hs ih =>
    cases hface
    obtain ⟨noted', hrest⟩ := ih (noted || s.Overflows)
    exact ⟨noted', .cons rfl hrest⟩

/-- The check has no influence on the faces. -/
theorem rollMany_of_ok {s t : Stepping} (h : Source.rollMany n sides s = (.ok faces, t))
    (noted : Bool) :
    ∃ noted', Source.rollMany n sides (Checked.mk s noted) = (.ok faces, ⟨t, noted'⟩) := by
  obtain ⟨hlen, hs⟩ := Draw.times_eq_ok.1 h
  obtain ⟨noted', hchecked⟩ := repeats hs noted
  exact ⟨noted', Draw.times_eq_ok.2 ⟨hlen, hchecked⟩⟩

/-! ### The exact count -/

/-- The count after `n` dice, as a number that no word bounds. -/
def count (start : Stepping) (n : Nat) : Nat := start.current.toNat + n * start.stride.toNat

/-- What is true after `n` dice: the overflow is noted once the exact count does not fit a
word, and until then the count is exact. -/
structure Counts (start : Stepping) (n : Nat) (c : Checked) : Prop where
  stride_eq : c.stepping.stride = start.stride
  overflowed_iff : c.overflowed = true ↔ UInt32.size ≤ count start n
  current_eq : c.overflowed = false → c.stepping.current.toNat = count start n

variable {start : Stepping} {c c' : Checked}

theorem counts_start (start : Stepping) : Counts start 0 ⟨start, false⟩ := by
  have hcount : count start 0 = start.current.toNat := by rw [count, Nat.zero_mul, Nat.add_zero]
  refine ⟨rfl, ?_, fun _ => hcount.symm⟩
  rw [hcount]
  exact iff_of_false Bool.false_ne_true (Nat.not_le.2 start.current.toNat_lt)

/-- One die more. -/
theorem Counts.roll (h : Counts start n c) (hstart : start.current ≠ 0) (sides : Sides) :
    Counts start (n + 1) (Checked.roll sides c).2 := by
  have hpos : 0 < start.current.toNat :=
    Nat.pos_of_ne_zero fun hzero => hstart (UInt32.toNat_inj.1 hzero)
  have hsucc : count start (n + 1) = count start n + start.stride.toNat := by
    rw [count, count, Nat.succ_mul, Nat.add_assoc]
  have hle : start.current.toNat ≤ count start n := Nat.le_add_right _ _
  obtain ⟨hstride, hiff, hexact⟩ := h
  cases hnoted : c.overflowed with
  | true =>
    have hsize := hiff.1 hnoted
    refine ⟨hstride, ?_, fun hfalse => ?_⟩
    · simp only [Checked.roll, hnoted, Bool.true_or, true_iff]
      omega
    · simp only [Checked.roll, hnoted, Bool.true_or, Bool.true_eq_false] at hfalse
  | false =>
    have hcurrent := hexact hnoted
    have hne : c.stepping.current ≠ 0 := by
      intro hzero
      rw [hzero, UInt32.toNat_zero] at hcurrent
      omega
    have hoverflows : c.stepping.Overflows ↔ UInt32.size ≤ count start (n + 1) := by
      rw [Overflows, or_iff_right hne, hcurrent, hstride, hsucc]
    refine ⟨hstride, ?_, fun hfalse => ?_⟩
    · simpa only [Checked.roll, hnoted, Bool.false_or, decide_eq_true_iff] using hoverflows
    · simp only [Checked.roll, hnoted, Bool.false_or, decide_eq_false_iff_not, hoverflows,
        Nat.not_le] at hfalse
      show (c.stepping.current + c.stepping.stride).toNat = _
      rw [UInt32.toNat_add, hcurrent, hstride, ← hsucc]
      exact Nat.mod_eq_of_lt hfalse

theorem Counts.repeats (h : Counts start n c) (hstart : start.current ≠ 0)
    (hs : (Checked.roll sides).Repeats c faces c') : Counts start (n + faces.length) c' := by
  induction hs generalizing n with
  | nil c => exact h
  | @cons c d c' face faces hface hs ih =>
    have hnext := h.roll hstart sides
    rw [hface] at hnext
    rw [List.length_cons, Nat.add_comm faces.length, ← Nat.add_assoc]
    exact ih hnext

theorem Counts.rollMany (h : Counts start n c) (hstart : start.current ≠ 0) {k : Nat}
    (hr : Source.rollMany k sides c = (.ok faces, c')) : Counts start (n + faces.length) c' :=
  h.repeats hstart (Draw.times_eq_ok.1 hr).2

end Checked

end DiceNotation.Stepping
