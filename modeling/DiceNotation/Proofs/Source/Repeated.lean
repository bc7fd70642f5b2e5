import DiceNotation.Dice.Source

/-! A draw made again and again. A batch of draws either has the result of each, or ends
with the first fault, behind the results so far. -/

namespace DiceNotation

/-- `Repeats draw s xs t`: from `s`, one draw after the other gives `xs` and none fails;
the last one ends in `t`. -/
inductive Draw.Repeats {σ α : Type} (draw : Draw σ α) : σ → List α → σ → Prop
  | nil (s : σ) : Repeats draw s [] s
  | cons {s t u x xs} (h : draw s = (.ok x, t)) (hs : Repeats draw t xs u) :
      Repeats draw s (x :: xs) u

namespace Draw

variable {σ α : Type} {draw : Draw σ α} {s t u : σ} {xs ys : List α} {n : Nat} {fault : Fault}

theorem Repeats.append (h : draw.Repeats s xs t) (h' : draw.Repeats t ys u) :
    draw.Repeats s (xs ++ ys) u := by
  induction h with
  | nil s => exact h'
  | cons hx hs ih => exact .cons hx (ih h')

/-- What every single draw satisfies. -/
theorem Repeats.forall_mem {P : α → Prop} (hP : ∀ s x t, draw s = (.ok x, t) → P x)
    (h : draw.Repeats s xs t) : ∀ x ∈ xs, P x := by
  induction h with
  | nil s => exact List.forall_mem_nil _
  | cons hx hs ih => exact List.forall_mem_cons.2 ⟨hP _ _ _ hx, ih⟩

/-- A batch succeeds with the results of that many draws. -/
theorem times_eq_ok : draw.times n s = (.ok xs, t) ↔ xs.length = n ∧ draw.Repeats s xs t := by
  constructor
  · intro h
    induction n generalizing s xs with
    | zero =>
      cases h
      exact ⟨rfl, .nil _⟩
    | succ n ih =>
      obtain ⟨x, r, hx, h⟩ := bind_eq_ok.1 h
      obtain ⟨later, r', hlater, h⟩ := bind_eq_ok.1 h
      cases h
      obtain ⟨hlen, hs⟩ := ih hlater
      exact ⟨congrArg (· + 1) hlen, .cons hx hs⟩
  · rintro ⟨rfl, h⟩
    induction h with
    | nil s => rfl
    | cons hx hs ih => rw [List.length_cons, times, bind_of_ok hx, bind_of_ok ih, pure_apply]

/-- A batch fails with the first draw that does, which is one of as many draws. -/
theorem times_eq_error : draw.times n s = (.error fault, t) ↔
    ∃ xs u, xs.length < n ∧ draw.Repeats s xs u ∧ draw u = (.error fault, t) := by
  constructor
  · intro h
    induction n generalizing s with
    | zero => cases h
    | succ n ih =>
      rcases bind_eq_error.1 h with hfault | ⟨x, r, hx, h⟩
      · exact ⟨[], s, Nat.succ_pos n, .nil s, hfault⟩
      · rcases bind_eq_error.1 h with hlater | ⟨later, r', hlater, h⟩
        · obtain ⟨xs, u, hlen, hs, hfault⟩ := ih hlater
          exact ⟨x :: xs, u, Nat.succ_lt_succ hlen, .cons hx hs, hfault⟩
        · cases h
  · rintro ⟨xs, u, hlen, hs, hfault⟩
    obtain ⟨k, rfl⟩ := Nat.exists_eq_add_of_lt hlen
    have hnext : draw.times (k + 1) u = (.error fault, t) := bind_of_error hfault
    rw [Nat.add_assoc]
    exact times_add_of_error (times_eq_ok.2 ⟨rfl, hs⟩) hnext

end Draw

end DiceNotation
