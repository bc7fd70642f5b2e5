import DiceNotation.Dice.Script
import DiceNotation.Proofs.Source.Checked
import DiceNotation.Proofs.Source.Metered

/-! Batches against single dice. A batch shows the faces that its dice show when they are
rolled one after the other, it ends where the first of them fails, and it leaves the source
as they do. This holds too of generators, which prepare a die once for the whole batch, down
to the number of words used up. So a batch can be rolled in two parts. -/

namespace DiceNotation

/-! ### Sources that roll die by die -/

/-- A batch succeeds with the faces of as many single dice, and fails with the fault of the
first single die that fails; the source is left where these dice leave it. -/
def Source.DieByDie (σ : Type) [Source σ] : Prop :=
  ∀ (sides : Sides) (n : Nat) (s t : σ),
    (∀ faces, Source.rollMany n sides s = (.ok faces, t) ↔
      faces.length = n ∧ (Source.roll sides).Repeats s faces t) ∧
    ∀ fault, Source.rollMany n sides s = (.error fault, t) ↔
      ∃ faces u, faces.length < n ∧ (Source.roll sides).Repeats s faces u ∧
        Source.roll sides u = (.error fault, t)

namespace Source

variable {σ : Type} [Source σ]

theorem dieByDie_of_times
    (h : ∀ n sides (s : σ), Source.rollMany n sides s = (Source.roll sides).times n s) :
    DieByDie σ := by
  intro sides n s t
  rw [h]
  exact ⟨fun faces => Draw.times_eq_ok, fun fault => Draw.times_eq_error⟩

/-- Two batches one after the other, unless the first one fails. -/
def rollParts (a b : Nat) (sides : Sides) : Draw σ (List UInt32) := do
  let xs ← Source.rollMany a sides
  let ys ← Source.rollMany b sides
  return xs ++ ys

theorem DieByDie.rollMany_add (h : DieByDie σ) (a b : Nat) (sides : Sides) (s : σ) :
    Source.rollMany (a + b) sides s = rollParts a b sides s := by
  unfold rollParts
  -- The dice in front of a fault in the second part are those of the first part and some more.
  rcases hfirst : Source.rollMany a sides s with ⟨fault | xs, t⟩
  · rw [Draw.bind_of_error hfirst]
    obtain ⟨faces, u, hlen, hs, hfault⟩ := ((h sides a s t).2 fault).1 hfirst
    exact ((h sides (a + b) s t).2 fault).2
      ⟨faces, u, Nat.lt_of_lt_of_le hlen (Nat.le_add_right a b), hs, hfault⟩
  · rw [Draw.bind_of_ok hfirst]
    obtain ⟨rfl, hxs⟩ := ((h sides a s t).1 xs).1 hfirst
    rcases hsecond : Source.rollMany b sides t with ⟨fault | ys, u⟩
    · rw [Draw.bind_of_error hsecond]
      obtain ⟨faces, r, hlen, hs, hfault⟩ := ((h sides b t u).2 fault).1 hsecond
      refine ((h sides (xs.length + b) s u).2 fault).2 ⟨xs ++ faces, r, ?_, hxs.append hs, hfault⟩
      rw [List.length_append]
      exact Nat.add_lt_add_left hlen xs.length
    · rw [Draw.bind_of_ok hsecond, Draw.pure_apply]
      obtain ⟨rfl, hys⟩ := ((h sides b t u).1 ys).1 hsecond
      exact ((h sides _ s u).1 _).2 ⟨List.length_append, hxs.append hys⟩

end Source

theorem Script.dieByDie : Source.DieByDie Script := Source.dieByDie_of_times fun _ _ _ => rfl

theorem Stepping.dieByDie : Source.DieByDie Stepping := Source.dieByDie_of_times fun _ _ _ => rfl

theorem Stepping.Checked.dieByDie : Source.DieByDie Stepping.Checked :=
  Source.dieByDie_of_times fun _ _ _ => rfl

/-! ### Generators -/

namespace Generator

variable {γ : Type} [Generator γ]

/-- A die prepared once serves as well as one that is prepared for every throw. -/
theorem times_roll (n : Nat) (sides : Sides) (g : γ) :
    (roll sides).times n g = rollMany n sides g := by
  induction n generalizing g with
  | zero => rfl
  | succ n ih =>
    let d := FairDie.ofSides sides
    have hface : roll sides g = (.ok (d.throw g).1, (d.throw g).2) := rfl
    have hrest : (roll sides).times n (d.throw g).2 =
        (.ok (d.throws n (d.throw g).2).1, (d.throws n (d.throw g).2).2) := ih _
    rw [Draw.times, Draw.bind_of_ok hface, Draw.bind_of_ok hrest]
    rfl

theorem dieByDie : Source.DieByDie γ :=
  Source.dieByDie_of_times fun n sides g => (times_roll n sides g).symm

end Generator

/-! ### Batches and single dice -/

/-- On every generator of words, on scripts and on stepping sources a batch is its dice rolled
one after the other; so under a check for overflow it breaks off exactly if these do. On
generators it takes the same words too, which a meter shows: those that are rejected and
those that make a face, and none for no dice. So a batch can be rolled in two parts, the
second of which is left out if the first fails. -/
theorem rollMany_die_by_die :
    ((∀ {γ : Type} [Generator γ], Source.DieByDie γ) ∧ Source.DieByDie Script ∧
      Source.DieByDie Stepping ∧ Source.DieByDie Stepping.Checked) ∧
    ((∀ (n : Nat) (sides : Sides) (w : Words) (drawn : Nat), ∃ faces used t,
        (FairDie.ofSides sides).Uses used faces ∧ w.Yields used t ∧
        Source.rollMany n sides w = (.ok faces, t) ∧ (Source.roll sides).Repeats w faces t ∧
        Source.rollMany n sides (Metered.mk w drawn) = (.ok faces, ⟨t, drawn + used.length⟩) ∧
        (Source.roll sides).Repeats (Metered.mk w drawn) faces ⟨t, drawn + used.length⟩) ∧
      ∀ (sides : Sides) (m : Metered Words), Source.rollMany 0 sides m = (.ok [], m)) ∧
    ∀ {σ : Type} [Source σ], Source.DieByDie σ → ∀ (a b : Nat) (sides : Sides) (s : σ),
      Source.rollMany (a + b) sides s = Source.rollParts a b sides s := by
  refine ⟨⟨Generator.dieByDie, Script.dieByDie, Stepping.dieByDie, Stepping.Checked.dieByDie⟩,
    ⟨?_, fun sides m => rfl⟩, ?_⟩
  · intro n sides w drawn
    obtain ⟨faces, used, t, huses, hyields, hthrows, hmetered⟩ :=
      Metered.exists_throws (FairDie.ofSides sides) n w drawn
    have hwords : Source.rollMany n sides w = (.ok faces, t) := by
      show Generator.rollMany n sides w = _
      rw [Generator.rollMany, hthrows]
    have hmeter : Source.rollMany n sides (Metered.mk w drawn) =
        (.ok faces, ⟨t, drawn + used.length⟩) := by
      show Generator.rollMany n sides _ = _
      rw [Generator.rollMany, hmetered]
    exact ⟨faces, used, t, huses, hyields, hwords,
      (((Generator.dieByDie sides n _ _).1 faces).1 hwords).2, hmeter,
      (((Generator.dieByDie sides n _ _).1 faces).1 hmeter).2⟩
  · intro σ _ h a b sides s
    exact h.rollMany_add a b sides s

/-- A face that does not fit keeps the second part from being rolled; on a die with three
sides a word is rejected before each of the faces, the last of which a zero makes; and a
count overflows in the first part, from which on it is noted. -/
theorem rollMany_die_by_die_misfit :
    ∃ six three : Sides, six.toNat = 6 ∧ three.toNat = 3 ∧
      Source.DieByDie Script ∧ Source.DieByDie (Metered Words) ∧
      Source.DieByDie Stepping.Checked ∧
      Source.rollMany (2 + 2) six (Script.once [3, 9, 4, 5]) =
        Source.rollParts 2 2 six (Script.once [3, 9, 4, 5]) ∧
      Source.rollParts 2 2 six (Script.once [3, 9, 4, 5]) =
        (.error (.outOfRange 9 six), Script.once [4, 5]) ∧
      Source.rollMany (1 + 1) three (Metered.mk (Words.mk [0x55555555, 0, 0x55555555]) 0) =
        Source.rollParts 1 1 three (Metered.mk (Words.mk [0x55555555, 0, 0x55555555]) 0) ∧
      Source.rollParts 1 1 three (Metered.mk (Words.mk [0x55555555, 0, 0x55555555]) 0) =
        (.ok [1, 1], ⟨⟨[]⟩, 4⟩) ∧
      Source.rollMany (1 + 2) six (Stepping.Checked.mk ⟨0xffffffff, 1⟩ false) =
        Source.rollParts 1 2 six (Stepping.Checked.mk ⟨0xffffffff, 1⟩ false) ∧
      Source.rollParts 1 2 six (Stepping.Checked.mk ⟨0xffffffff, 1⟩ false) =
        (.ok [3, 4, 1], ⟨⟨2, 1⟩, true⟩) := by
  obtain ⟨⟨hgenerator, hscript, -, hchecked⟩, -, hparts⟩ := rollMany_die_by_die
  exact ⟨Sides.ofNat 6 (by decide) (by decide), Sides.ofNat 3 (by decide) (by decide), rfl, rfl,
    hscript, hgenerator, hchecked, hparts hscript 2 2 _ _, rfl, hparts hgenerator 1 1 _ _, rfl,
    hparts hchecked 1 2 _ _, rfl⟩

end DiceNotation
