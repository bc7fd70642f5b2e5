import DiceNotation.Dice.Sides

/-! Sources of faces. A source rolls one die or a batch of equal dice; it may fail,
and what it had drawn until then stays drawn. -/

namespace DiceNotation

/-- The ways in which a source fails; nothing else about an expression can. -/
inductive Fault where
  | exhausted
  | outOfRange (value : UInt32) (sides : Sides)
  deriving DecidableEq, Repr

def Fault.message : Fault → String
  | exhausted => "random source exhausted"
  | outOfRange value sides =>
    "random source produced " ++ toString value.toNat ++ ", outside of 1..=" ++ sides.text

/-- A computation on a state, which is kept when a fault ends it. -/
abbrev Draw (σ α : Type) := ExceptT Fault (StateM σ) α

namespace Draw

variable {σ α β : Type}

theorem pure_apply (a : α) (s : σ) : (pure a : Draw σ α) s = (.ok a, s) := rfl

theorem bind_of_ok {d : Draw σ α} {f : α → Draw σ β} {s t : σ} {a : α} (h : d s = (.ok a, t)) :
    (d >>= f) s = f a t := by
  change (match d s with | (r, t) => ExceptT.bindCont f r t) = _
  rw [h]; rfl

theorem bind_of_error {d : Draw σ α} {f : α → Draw σ β} {s t : σ} {e : Fault}
    (h : d s = (.error e, t)) : (d >>= f) s = (.error e, t) := by
  change (match d s with | (r, t) => ExceptT.bindCont f r t) = _
  rw [h]; rfl

/-- A computation in two parts succeeds if both do. -/
theorem bind_eq_ok {d : Draw σ α} {f : α → Draw σ β} {s u : σ} {b : β} :
    (d >>= f) s = (.ok b, u) ↔ ∃ a t, d s = (.ok a, t) ∧ f a t = (.ok b, u) := by
  constructor
  · intro h
    cases hd : d s with
    | mk r t =>
      cases r with
      | ok a => exact ⟨a, t, rfl, by rwa [bind_of_ok hd] at h⟩
      | error e =>
        rw [bind_of_error hd] at h
        cases h
  · rintro ⟨a, t, hd, hf⟩
    rwa [bind_of_ok hd]

/-- It fails if the first part fails, or the first succeeds and the second fails. -/
theorem bind_eq_error {d : Draw σ α} {f : α → Draw σ β} {s u : σ} {e : Fault} :
    (d >>= f) s = (.error e, u) ↔
      d s = (.error e, u) ∨ ∃ a t, d s = (.ok a, t) ∧ f a t = (.error e, u) := by
  constructor
  · intro h
    cases hd : d s with
    | mk r t =>
      cases r with
      | ok a => exact .inr ⟨a, t, rfl, by rwa [bind_of_ok hd] at h⟩
      | error e' =>
        rw [bind_of_error hd] at h
        cases h
        exact .inl rfl
  · rintro (hd | ⟨a, t, hd, hf⟩)
    · exact bind_of_error hd
    · rwa [bind_of_ok hd]

/-- The results in order, up to the first fault. -/
def times (draw : Draw σ α) : Nat → Draw σ (List α)
  | 0 => pure []
  | n + 1 => do
    let x ← draw
    let xs ← times draw n
    pure (x :: xs)

/-- A batch in two parts fails where the second part does. -/
theorem times_add_of_error {draw : Draw σ α} {m n : Nat} {s t u : σ} {xs : List α} {e : Fault}
    (h : draw.times m s = (.ok xs, t)) (he : draw.times n t = (.error e, u)) :
    draw.times (m + n) s = (.error e, u) := by
  induction m generalizing s xs with
  | zero =>
    cases h
    rwa [Nat.zero_add]
  | succ m ih =>
    obtain ⟨x, r, hx, h⟩ := bind_eq_ok.1 h
    obtain ⟨ys, r', hys, h⟩ := bind_eq_ok.1 h
    cases h
    rw [Nat.succ_add, times, bind_of_ok hx, bind_of_error (ih hys)]

end Draw

/-- States from which dice can be rolled. A batch is rolled die by die unless a
source has a way of its own. -/
class Source (σ : Type) where
  roll (sides : Sides) : Draw σ UInt32
  rollMany (count : Nat) (sides : Sides) : Draw σ (List UInt32) := (roll sides).times count

end DiceNotation
