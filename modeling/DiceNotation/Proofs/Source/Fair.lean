import DiceNotation.Proofs.Source.Honest
import DiceNotation.Proofs.Source.Metered
import Mathlib.Algebra.BigOperators.Group.Finset.Basic
import Mathlib.Algebra.Group.Action.Defs
import Mathlib.Data.FinEnum
import Mathlib.Order.Interval.Finset.Nat

/-! Fair dice, by counting words. The words that make one face are those whose product
with the number of sides begins with that face and is accepted; they lie next to each
other, and however many sides there are, every face has the same number of them. -/

namespace DiceNotation.FairDie

open Finset

/-! ### Words next to each other -/

/-- A word as a number. -/
def number : UInt32 ↪ Nat := ⟨UInt32.toNat, fun _ _ => UInt32.toNat_inj.1⟩

/-- The words from `first` up to `last`, which is left out, are as many as the numbers. -/
theorem card_words {first last : Nat} (hlast : last ≤ UInt32.size) {P : UInt32 → Prop}
    [DecidablePred P] (h : ∀ word, P word ↔ first ≤ word.toNat ∧ word.toNat < last) :
    (univ.filter P).card = last - first := by
  have hmap : (univ.filter P).map number = Ico first last := by
    ext n
    simp only [mem_map, mem_filter, mem_univ, true_and, mem_Ico]
    constructor
    · rintro ⟨word, hword, rfl⟩
      exact (h word).1 hword
    · intro hn
      have hlt : n < UInt32.size := Nat.lt_of_lt_of_le hn.2 hlast
      have hword : (UInt32.ofNatLT n hlt).toNat = n := UInt32.toNat_ofNatLT
      refine ⟨UInt32.ofNatLT n hlt, ?_, hword⟩
      rw [h, hword]
      exact hn
  rw [← card_map number, hmap, Nat.card_Ico]

theorem card_shows (sides : Sides) :
    (univ.filter fun face => sides.Shows face).card = sides.toNat := by
  have h (face : UInt32) : sides.Shows face ↔ 1 ≤ face.toNat ∧ face.toNat < sides.toNat + 1 := by
    rw [Nat.lt_succ_iff]
    exact and_congr UInt32.le_iff_toNat_le UInt32.le_iff_toNat_le
  exact card_words sides.toNat_lt h

/-! ### The words of one face -/

/-- A product has the high half `high` and a low half in front of the last `cut` ones
exactly if it lies in front of these, from the first product with that high half on. -/
theorem halves_iff {size cut high product : Nat} (hcut : cut < size) :
    product % size ≤ size - 1 - cut ∧ product / size = high ↔
      high * size ≤ product ∧ product < high * size + (size - cut) := by
  have hsplit := Nat.div_add_mod' product size
  constructor
  · rintro ⟨hlow, rfl⟩
    omega
  · rintro ⟨hfirst, hlast⟩
    have hhigh : product / size = high := by
      apply Nat.div_eq_of_lt_le hfirst
      rw [Nat.succ_mul]
      omega
    rw [hhigh] at hsplit
    omega

variable (sides : Sides)

theorem toNat_zone : (ofSides sides).zone.toNat =
    UInt32.size - 1 - UInt32.size % sides.toNat := by
  have hlt : UInt32.size - 1 - UInt32.size % sides.toNat < UInt32.size :=
    Nat.lt_of_le_of_lt (Nat.sub_le _ _) (by decide)
  exact UInt32.toNat_ofNat_of_lt' hlt

/-- A word is accepted unless the low half of its product is one of the last. -/
theorem accepts_iff (word : UInt32) : (ofSides sides).Accepts word ↔
    word.toNat * sides.toNat % UInt32.size ≤ UInt32.size - 1 - UInt32.size % sides.toNat := by
  have hlow : ((ofSides sides).product word).toUInt32.toNat =
      word.toNat * sides.toNat % UInt32.size := by
    rw [UInt64.toNat_toUInt32, toNat_product]
    rfl
  show _ ≤ _ ↔ _
  rw [UInt32.le_iff_toNat_le, toNat_zone, hlow]

/-- The least word whose product has the high half `high`. -/
def firstWord (high : Nat) : Nat := (high * UInt32.size + (sides.toNat - 1)) / sides.toNat

variable {sides}

theorem firstWord_le_iff {high n : Nat} :
    firstWord sides high ≤ n ↔ high * UInt32.size ≤ n * sides.toNat := by
  rw [firstWord, Nat.div_le_iff_le_mul_add_pred sides.toNat_pos, Nat.mul_comm sides.toNat]
  exact Nat.add_le_add_iff_right

theorem lt_firstWord_add_iff {high n count : Nat} :
    n < firstWord sides high + count ↔
      n * sides.toNat < high * UInt32.size + sides.toNat * count := by
  have hshift : firstWord sides high + count =
      (high * UInt32.size + sides.toNat * count + (sides.toNat - 1)) / sides.toNat := by
    rw [firstWord, ← Nat.add_mul_div_left _ _ sides.toNat_pos, Nat.add_right_comm]
  rw [hshift, ← Nat.not_le, Nat.div_le_iff_le_mul_add_pred sides.toNat_pos,
    Nat.mul_comm sides.toNat n, Nat.add_le_add_iff_right, Nat.not_le]

/-- The accepted words that make a face lie next to each other. -/
theorem makes_iff {face : UInt32} (hface : 1 ≤ face) (word : UInt32) :
    (ofSides sides).Accepts word ∧ (ofSides sides).face word = face ↔
      firstWord sides (face.toNat - 1) ≤ word.toNat ∧
        word.toNat < firstWord sides (face.toNat - 1) + UInt32.size / sides.toNat := by
  have hone : 1 ≤ face.toNat := UInt32.le_iff_toNat_le.1 hface
  have hcut : UInt32.size % sides.toNat < UInt32.size :=
    Nat.lt_trans (Nat.mod_lt _ sides.toNat_pos) sides.toNat_lt
  -- What is cut off leaves a multiple of the number of sides, so no word is split.
  have hfull : UInt32.size - UInt32.size % sides.toNat =
      sides.toNat * (UInt32.size / sides.toNat) := by
    have := Nat.div_add_mod UInt32.size sides.toNat
    omega
  have hmakes : (ofSides sides).face word = face ↔
      word.toNat * sides.toNat / UInt32.size = face.toNat - 1 := by
    rw [← UInt32.toNat_inj, toNat_face]
    show word.toNat * sides.toNat / UInt32.size + 1 = _ ↔ _
    omega
  rw [accepts_iff, hmakes, halves_iff hcut, hfull, firstWord_le_iff, lt_firstWord_add_iff]

/-- Every face is made by as many words as the words can give to each. -/
theorem card_face {face : UInt32} (hface : sides.Shows face) :
    (univ.filter fun word =>
      (ofSides sides).Accepts word ∧ (ofSides sides).face word = face).card =
      UInt32.size / sides.toNat := by
  have hone : 1 ≤ face.toNat := UInt32.le_iff_toNat_le.1 hface.1
  have hsides : face.toNat ≤ sides.toNat := UInt32.le_iff_toNat_le.1 hface.2
  have hquotient : sides.toNat * (UInt32.size / sides.toNat) ≤ UInt32.size :=
    Nat.mul_div_le UInt32.size sides.toNat
  have hproduct : (face.toNat - 1) * UInt32.size + UInt32.size ≤ sides.toNat * UInt32.size := by
    rw [← Nat.succ_mul]
    exact Nat.mul_le_mul_right UInt32.size (by omega)
  -- All of these numbers are words: past the greatest word the products are too great.
  have hlast : firstWord sides (face.toNat - 1) + UInt32.size / sides.toNat ≤ UInt32.size := by
    rw [← Nat.not_lt, lt_firstWord_add_iff, Nat.mul_comm UInt32.size]
    omega
  rw [card_words hlast (makes_iff hface.1), Nat.add_sub_cancel_left]

/-- Together the faces have all accepted words. -/
theorem card_accepted (sides : Sides) :
    (univ.filter (ofSides sides).Accepts).card =
      sides.toNat * (UInt32.size / sides.toNat) := by
  have hface : Set.MapsTo (ofSides sides).face (univ.filter (ofSides sides).Accepts)
      (univ.filter fun face => sides.Shows face) := by
    intro word _
    exact mem_coe.2 (mem_filter.2 ⟨mem_univ _, (ofSides sides).shows_face word⟩)
  rw [card_eq_sum_card_fiberwise hface]
  calc
    _ = ∑ face with sides.Shows face, UInt32.size / sides.toNat := by
      apply sum_congr rfl
      intro face hshows
      rw [filter_filter]
      exact card_face (mem_filter.1 hshows).2
    _ = _ := by rw [sum_const, card_shows, smul_eq_mul]

theorem card_rejected (sides : Sides) :
    (univ.filter fun word => ¬(ofSides sides).Accepts word).card =
      UInt32.size % sides.toNat := by
  have hall : (univ : Finset UInt32).card = UInt32.size := by
    rw [card_univ, ← FinEnum.card_eq_fintypeCard]
    rfl
  have hboth := card_filter_add_card_filter_not (s := univ) (ofSides sides).Accepts
  have hsplit := Nat.div_add_mod UInt32.size sides.toNat
  rw [card_accepted, hall] at hboth
  omega

/-- A remainder is less than half of what is divided. -/
theorem mod_lt_half {m n : Nat} (hn : 0 < n) (hle : n ≤ m) : 2 * (m % n) < m := by
  have hmod := Nat.mod_lt m hn
  have hsplit := Nat.div_add_mod m n
  have hone : n * 1 ≤ n * (m / n) := Nat.mul_le_mul_left n (Nat.div_pos hle hn)
  omega

/-! ### Fairness -/

/-- Every die is fair. Of all words, those that are accepted make faces of the die, every
face as many of them as any other; fewer than half are rejected, and zero is not. So a throw
ends: at the first word that is accepted, if not at the zero after all words. -/
theorem roll_fair (sides : Sides) :
    (∀ word, ((ofSides sides).Accepts word ↔ word.toNat * sides.toNat % UInt32.size ≤
        UInt32.size - 1 - UInt32.size % sides.toNat) ∧
      ((ofSides sides).face word).toNat = 1 + word.toNat * sides.toNat / UInt32.size) ∧
    (∀ word, (ofSides sides).Accepts word → sides.Shows ((ofSides sides).face word)) ∧
    (∀ face, sides.Shows face →
      (univ.filter fun word =>
        (ofSides sides).Accepts word ∧ (ofSides sides).face word = face).card =
        UInt32.size / sides.toNat) ∧
    2 * (univ.filter fun word => ¬(ofSides sides).Accepts word).card < UInt32.size ∧
    (ofSides sides).Accepts 0 ∧
    ∀ w : Words, ∃ face used t, Source.roll sides w = (.ok face, t) ∧
      (ofSides sides).Uses used [face] ∧ w.Yields used t ∧
      used.length ≤ w.upcoming.length + 1 := by
  refine ⟨fun word => ⟨accepts_iff sides word, ?_⟩, fun word _ => shows_face _ word,
    fun face => card_face, ?_, accepts_zero _, fun w => ?_⟩
  · rw [toNat_face, Nat.add_comm]
    rfl
  · rw [card_rejected]
    exact mod_lt_half sides.toNat_pos (Nat.le_of_lt sides.toNat_lt)
  · obtain ⟨face, used, t, huses, hyields, hlen, hthrow, -⟩ :=
      Metered.exists_throw (ofSides sides) w 0
    refine ⟨face, used, t, ?_, huses, hyields, hlen⟩
    show Generator.roll sides w = _
    rw [Generator.roll, hthrow]

/-- Three sides do not divide the number of words, and one word is rejected. -/
theorem roll_fair_three_sides :
    ∃ three : Sides, three.toNat = 3 ∧ ¬(ofSides three).Accepts 0x55555555 ∧
      (ofSides three).Accepts 0xaaaaaaaa ∧ three.Shows ((ofSides three).face 0xaaaaaaaa) ∧
      three.Shows 2 ∧
      (univ.filter fun word =>
        (ofSides three).Accepts word ∧ (ofSides three).face word = 2).card = 1431655765 := by
  have haccepts : (ofSides (Sides.ofNat 3 (by decide) (by decide))).Accepts 0xaaaaaaaa := by
    decide
  have hshows : (Sides.ofNat 3 (by decide) (by decide)).Shows 2 := by decide
  obtain ⟨-, hface, hcard, -⟩ := roll_fair (Sides.ofNat 3 (by decide) (by decide))
  exact ⟨_, rfl, by decide, haccepts, hface _ haccepts, hshows, hcard 2 hshows⟩

end DiceNotation.FairDie
