import DiceNotation.Dice.Words

/-! The words behind the faces. Each throw of a fair die uses up the words that are
rejected and the one that is accepted after them; a batch uses up the words of its throws.
A metered generator counts what it puts out, the zeros after its words included. -/

namespace DiceNotation

/-! ### Words used up -/

/-- `Uses d used faces`: out of the words `used` the die makes `faces`, and no word stands
behind the last one that is accepted. -/
inductive FairDie.Uses (d : FairDie) : List UInt32 → List UInt32 → Prop
  | nil : Uses d [] []
  | accepted {word used faces} (h : d.Accepts word) (hused : Uses d used faces) :
      Uses d (word :: used) (d.face word :: faces)
  | rejected {word used face faces} (h : ¬d.Accepts word) (hused : Uses d used (face :: faces)) :
      Uses d (word :: used) (face :: faces)

/-- `Yields w used t`: the generator `w` puts out the words `used`, and is `t` then. -/
inductive Words.Yields : Words → List UInt32 → Words → Prop
  | nil (w : Words) : Yields w [] w
  | word {words used t} (word : UInt32) (h : Yields ⟨words⟩ used t) :
      Yields ⟨word :: words⟩ (word :: used) t
  | zero {used t} (h : Yields ⟨[]⟩ used t) : Yields ⟨[]⟩ (0 :: used) t

namespace FairDie

variable {d : FairDie} {used used' faces faces' : List UInt32}

/-- The product with zero is zero, which no zone excludes. -/
theorem accepts_zero (d : FairDie) : d.Accepts 0 := by
  show (d.product 0).toUInt32 ≤ d.zone
  have hproduct : d.product 0 = 0 := UInt64.zero_mul
  rw [hproduct]
  exact UInt32.zero_le

theorem Uses.append (h : d.Uses used faces) (h' : d.Uses used' faces') :
    d.Uses (used ++ used') (faces ++ faces') := by
  induction h with
  | nil => exact h'
  | accepted hword hused ih => exact .accepted hword ih
  | rejected hword hused ih => exact .rejected hword ih

end FairDie

theorem Words.Yields.append {w t u : Words} {used used' : List UInt32} (h : Yields w used t)
    (h' : Yields t used' u) : Yields w (used ++ used') u := by
  induction h with
  | nil w => exact h'
  | word word h ih => exact .word word (ih h')
  | zero h ih => exact .zero (ih h')

/-! ### Metered generators -/

/-- A generator with the number of words that it has put out. -/
structure Metered (γ : Type) where
  generator : γ
  drawn : Nat := 0
  deriving DecidableEq, Repr

instance {γ : Type} [Generator γ] : Generator (Metered γ) where
  next m :=
    let (word, generator) := Generator.next m.generator
    (word, { generator, drawn := m.drawn + 1 })
  ahead m := Generator.ahead m.generator

namespace Metered

/-! ### What the meter shows -/

/-- A throw ends at the first word that is accepted, or at the zero after all words. -/
theorem exists_throw (d : FairDie) (w : Words) (drawn : Nat) :
    ∃ face used t, d.Uses used [face] ∧ w.Yields used t ∧ used.length ≤ w.upcoming.length + 1 ∧
      d.throw w = (face, t) ∧ d.throw (Metered.mk w drawn) = (face, ⟨t, drawn + used.length⟩) := by
  obtain ⟨words⟩ := w
  induction words generalizing drawn with
  | nil =>
    exact ⟨d.face 0, [0], ⟨[]⟩, .accepted d.accepts_zero .nil, .zero (.nil _), Nat.le_refl 1, rfl,
      rfl⟩
  | cons word words ih =>
    by_cases h : d.Accepts word
    · refine ⟨d.face word, [word], ⟨words⟩, .accepted h .nil, .word word (.nil _), by simp,
        ?_, ?_⟩
      · exact if_pos h
      · exact if_pos h
    · obtain ⟨face, used, t, huses, hyields, hlen, hthrow, hmetered⟩ := ih (drawn + 1)
      refine ⟨face, word :: used, t, .rejected h huses, .word word hyields,
        Nat.succ_le_succ hlen, ?_, ?_⟩
      · rw [← hthrow]
        exact if_neg h
      · rw [List.length_cons, Nat.add_comm used.length, ← Nat.add_assoc, ← hmetered]
        exact if_neg h

theorem exists_throws (d : FairDie) (n : Nat) (w : Words) (drawn : Nat) :
    ∃ faces used t, d.Uses used faces ∧ w.Yields used t ∧ d.throws n w = (faces, t) ∧
      d.throws n (Metered.mk w drawn) = (faces, ⟨t, drawn + used.length⟩) := by
  induction n generalizing w drawn with
  | zero => exact ⟨[], [], w, .nil, .nil _, rfl, rfl⟩
  | succ n ih =>
    obtain ⟨face, used, t, huses, hyields, -, hthrow, hmetered⟩ := exists_throw d w drawn
    obtain ⟨faces, used', t', huses', hyields', hthrows, hmetered'⟩ :=
      ih t (drawn + used.length)
    refine ⟨face :: faces, used ++ used', t', huses.append huses', hyields.append hyields',
      ?_, ?_⟩
    · simp only [FairDie.throws, hthrow, hthrows]
    · simp only [FairDie.throws, hmetered, hmetered', List.length_append, Nat.add_assoc]

end Metered

end DiceNotation
