/-! The number of sides of a die, which is never zero. -/

namespace DiceNotation

structure Sides where
  toUInt32 : UInt32
  pos : 0 < toUInt32
  deriving DecidableEq, Repr

namespace Sides

def toNat (s : Sides) : Nat := s.toUInt32.toNat

theorem toNat_pos (s : Sides) : 0 < s.toNat := UInt32.lt_iff_toNat_lt.1 s.pos

theorem toNat_lt (s : Sides) : s.toNat < UInt32.size := s.toUInt32.toNat_lt

theorem toNat_inj {s t : Sides} : s.toNat = t.toNat ↔ s = t := by
  cases s; cases t
  simp [toNat, UInt32.toNat_inj]

def ofNat (n : Nat) (pos : 0 < n) (lt : n < UInt32.size) : Sides :=
  ⟨UInt32.ofNatLT n lt, by rw [UInt32.lt_iff_toNat_lt, UInt32.toNat_ofNatLT]; exact pos⟩

@[simp] theorem toNat_ofNat (n : Nat) (pos : 0 < n) (lt : n < UInt32.size) :
    (ofNat n pos lt).toNat = n := UInt32.toNat_ofNatLT

/-- The faces of a die are numbered from one. -/
def Shows (s : Sides) (face : UInt32) : Prop := 1 ≤ face ∧ face ≤ s.toUInt32

instance (s : Sides) (face : UInt32) : Decidable (s.Shows face) :=
  inferInstanceAs (Decidable (_ ∧ _))

def text (s : Sides) : String := toString s.toNat

end Sides

end DiceNotation
