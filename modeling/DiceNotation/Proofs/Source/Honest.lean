import DiceNotation.Dice.Script
import DiceNotation.Dice.Stepping
import DiceNotation.Dice.Words
import DiceNotation.Proofs.Source.Repeated

/-! Honest sources: a batch that succeeds has as many faces as were asked for, and
every face is on the die. Scripts, stepping sources and all generators are honest. -/

namespace DiceNotation

/-- A successful batch has the right number of faces, and the die shows them all. -/
def Source.Honest (σ : Type) [Source σ] : Prop :=
  ∀ (count : UInt64) (sides : Sides) (s t : σ) (faces : List UInt32),
    Source.rollMany count.toNat sides s = (.ok faces, t) →
      faces.length = count.toNat ∧ ∀ face ∈ faces, sides.Shows face

/-! ### Sources that roll die by die -/

theorem Draw.times_ok {σ α : Type} {draw : Draw σ α} {P : α → Prop}
    (h : ∀ s x t, draw s = (.ok x, t) → P x) {n : Nat} {s t : σ} {xs : List α}
    (hxs : draw.times n s = (.ok xs, t)) : xs.length = n ∧ ∀ x ∈ xs, P x := by
  obtain ⟨hlen, hs⟩ := times_eq_ok.1 hxs
  exact ⟨hlen, hs.forall_mem h⟩

theorem Script.roll_shows {sides : Sides} {s t : Script} {face : UInt32}
    (h : Script.roll sides s = (.ok face, t)) : sides.Shows face := by
  unfold Script.roll at h
  split at h
  · cases h
  · split at h
    · next hs =>
      cases h
      exact hs
    · cases h

theorem Script.honest : Source.Honest Script := by
  intro count sides s t faces h
  exact Draw.times_ok (P := sides.Shows) (fun _ _ _ hx => roll_shows hx) h

theorem Stepping.shows_face (s : Stepping) (sides : Sides) : sides.Shows (s.face sides) := by
  have hlt := sides.toNat_lt
  have hmod : ((s.current - 1) % sides.toUInt32).toNat < sides.toNat := by
    rw [UInt32.toNat_mod]
    exact Nat.mod_lt _ sides.toNat_pos
  have hface : (s.face sides).toNat = ((s.current - 1) % sides.toUInt32).toNat + 1 := by
    rw [face, UInt32.toNat_add, UInt32.toNat_one]
    exact Nat.mod_eq_of_lt (Nat.lt_of_le_of_lt hmod hlt)
  constructor
  · rw [UInt32.le_iff_toNat_le, hface]
    exact Nat.le_add_left 1 _
  · rw [UInt32.le_iff_toNat_le, hface]
    exact hmod

theorem Stepping.roll_shows {sides : Sides} {s t : Stepping} {face : UInt32}
    (h : Stepping.roll sides s = (.ok face, t)) : sides.Shows face := by
  cases h
  exact s.shows_face sides

theorem Stepping.honest : Source.Honest Stepping := by
  intro count sides s t faces h
  exact Draw.times_ok (P := sides.Shows) (fun _ _ _ hx => roll_shows hx) h

/-! ### Fair dice -/

theorem FairDie.toNat_product (d : FairDie) (word : UInt32) :
    (d.product word).toNat = word.toNat * d.sides.toNat := by
  have hlt : word.toNat * d.sides.toNat < UInt32.size * UInt32.size :=
    Nat.mul_lt_mul'' word.toNat_lt d.sides.toNat_lt
  rw [FairDie.product, UInt64.toNat_mul, UInt32.toNat_toUInt64, UInt32.toNat_toUInt64]
  exact Nat.mod_eq_of_lt hlt

/-- The high half of a product is less than the number of sides. -/
theorem FairDie.highHalf_lt (d : FairDie) (word : UInt32) :
    word.toNat * d.sides.toNat / UInt32.size < d.sides.toNat := by
  refine Nat.div_lt_of_lt_mul ?_
  exact Nat.mul_lt_mul_of_pos_right word.toNat_lt d.sides.toNat_pos

/-- The face is the high half of the exact product, counted from one. -/
theorem FairDie.toNat_face (d : FairDie) (word : UInt32) :
    (d.face word).toNat = word.toNat * d.sides.toNat / UInt32.size + 1 := by
  have hhigh := d.highHalf_lt word
  have hsides := d.sides.toNat_lt
  have hshift : (d.product word >>> 32).toNat = word.toNat * d.sides.toNat / UInt32.size := by
    rw [UInt64.toNat_shiftRight, d.toNat_product, Nat.shiftRight_eq_div_pow]
    rfl
  rw [FairDie.face, UInt32.toNat_add, UInt64.toNat_toUInt32, hshift]
  simp only [UInt32.size] at hsides
  rw [UInt32.toNat_one]
  omega

theorem FairDie.shows_face (d : FairDie) (word : UInt32) : d.sides.Shows (d.face word) := by
  have hhigh := d.highHalf_lt word
  constructor
  · rw [UInt32.le_iff_toNat_le, d.toNat_face]
    exact Nat.le_add_left 1 _
  · rw [UInt32.le_iff_toNat_le, d.toNat_face]
    exact hhigh

section Generators
variable {γ : Type} [Generator γ]

theorem FairDie.throwWithin_shows (d : FairDie) (n : Nat) (g : γ) :
    d.sides.Shows (d.throwWithin n g).1 := by
  induction n generalizing g with
  | zero => exact d.shows_face _
  | succ n ih =>
    rw [throwWithin_succ]
    split
    · exact d.shows_face _
    · exact ih _

theorem FairDie.throws_shows (d : FairDie) (n : Nat) (g : γ) :
    (d.throws n g).1.length = n ∧ ∀ face ∈ (d.throws n g).1, d.sides.Shows face := by
  induction n generalizing g with
  | zero => exact ⟨rfl, List.forall_mem_nil _⟩
  | succ n ih =>
    obtain ⟨hlen, hall⟩ := ih (d.throw g).2
    exact ⟨congrArg (· + 1) hlen, List.forall_mem_cons.2 ⟨d.throwWithin_shows _ g, hall⟩⟩

theorem Generator.honest : Source.Honest γ := by
  intro count sides s t faces h
  cases h
  exact (FairDie.ofSides sides).throws_shows count.toNat s

end Generators

theorem Words.honest : Source.Honest Words := Generator.honest

end DiceNotation
