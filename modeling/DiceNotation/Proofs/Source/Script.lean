import DiceNotation.Dice.Script

/-! Batches on a script that is played once: faces that fit are handed out in order, a
face that does not fit ends the batch and is used up with those before it, and a script
that is too short is used up by the batch that exhausts it. -/

namespace DiceNotation.Script

variable {sides : Sides}

theorem roll_once {face : UInt32} (h : sides.Shows face) (faces : List UInt32) :
    roll sides (once (face :: faces)) = (.ok face, once faces) := if_pos h

theorem roll_once_nil : roll sides (once []) = (.error .exhausted, once []) := rfl

/-- Faces that fit are dealt, and the others stay. -/
theorem rollMany_once {faces : List UInt32} (h : ∀ face ∈ faces, sides.Shows face)
    (extra : List UInt32) :
    Source.rollMany faces.length sides (once (faces ++ extra)) = (.ok faces, once extra) := by
  change (roll sides).times faces.length (once (faces ++ extra)) = _
  induction faces with
  | nil => rfl
  | cons face faces ih =>
    have hface := roll_once (h face List.mem_cons_self) (faces ++ extra)
    have hrest := ih fun f hf => h f (List.mem_cons_of_mem face hf)
    rw [List.length_cons, Draw.times, List.cons_append, Draw.bind_of_ok hface,
      Draw.bind_of_ok hrest, Draw.pure_apply]

/-- Behind faces that fit, the next die decides. -/
theorem rollMany_once_of_error {faces rest : List UInt32} (h : ∀ face ∈ faces, sides.Shows face)
    {n : Nat} (hn : faces.length < n) {fault : Fault} {script : Script}
    (hfault : roll sides (once rest) = (.error fault, script)) :
    Source.rollMany n sides (once (faces ++ rest)) = (.error fault, script) := by
  obtain ⟨k, rfl⟩ := Nat.exists_eq_add_of_lt hn
  have hnext : (roll sides).times (k + 1) (once rest) = (.error fault, script) :=
    Draw.bind_of_error hfault
  change (roll sides).times (faces.length + (k + 1)) (once (faces ++ rest)) = _
  exact Draw.times_add_of_error (rollMany_once h rest) hnext

/-- Where fewer faces are left than asked for, all of them are used up. -/
theorem rollMany_once_of_length_lt {faces : List UInt32} (h : ∀ face ∈ faces, sides.Shows face)
    {n : Nat} (hn : faces.length < n) :
    Source.rollMany n sides (once faces) = (.error .exhausted, once []) := by
  have hr := rollMany_once_of_error h hn roll_once_nil
  rwa [List.append_nil] at hr

/-- The first face that does not fit is the last one taken. -/
theorem rollMany_once_of_not_shows {faces : List UInt32} (h : ∀ face ∈ faces, sides.Shows face)
    {value : UInt32} (hvalue : ¬sides.Shows value) {n : Nat} (hn : faces.length < n)
    (rest : List UInt32) :
    Source.rollMany n sides (once (faces ++ value :: rest)) =
      (.error (.outOfRange value sides), once rest) :=
  rollMany_once_of_error h hn (if_neg hvalue)

/-! ### The three outcomes of a batch -/

/-- `Deals sides n faces result`: the batch of `n` dice on a script of `faces` comes to
`result`. Either the dice have their faces, or the script meets one that does not fit, or
it ends before. -/
inductive Deals (sides : Sides) (n : Nat) :
    List UInt32 → Except Fault (List UInt32) × Script → Prop
  | dealt (rolls rest : List UInt32) (hlen : rolls.length = n)
      (hall : ∀ face ∈ rolls, sides.Shows face) :
      Deals sides n (rolls ++ rest) (.ok rolls, once rest)
  | misfit (good : List UInt32) (value : UInt32) (rest : List UInt32) (hlen : good.length < n)
      (hall : ∀ face ∈ good, sides.Shows face) (hvalue : ¬sides.Shows value) :
      Deals sides n (good ++ value :: rest) (.error (.outOfRange value sides), once rest)
  | short (faces : List UInt32) (hlen : faces.length < n)
      (hall : ∀ face ∈ faces, sides.Shows face) :
      Deals sides n faces (.error .exhausted, once [])

theorem exists_deals (sides : Sides) (n : Nat) (faces : List UInt32) :
    ∃ result, Deals sides n faces result := by
  induction n generalizing faces with
  | zero => exact ⟨_, .dealt [] faces rfl (by simp)⟩
  | succ n ih =>
    cases faces with
    | nil => exact ⟨_, .short [] (Nat.succ_pos n) (by simp)⟩
    | cons face faces =>
      by_cases hface : sides.Shows face
      · obtain ⟨result, h⟩ := ih faces
        cases h with
        | dealt rolls rest hlen hall =>
          exact ⟨_, .dealt (face :: rolls) rest (congrArg Nat.succ hlen)
            (List.forall_mem_cons.2 ⟨hface, hall⟩)⟩
        | misfit good value rest hlen hall hvalue =>
          exact ⟨_, .misfit (face :: good) value rest (Nat.succ_lt_succ hlen)
            (List.forall_mem_cons.2 ⟨hface, hall⟩) hvalue⟩
        | short faces hlen hall =>
          exact ⟨_, .short (face :: faces) (Nat.succ_lt_succ hlen)
            (List.forall_mem_cons.2 ⟨hface, hall⟩)⟩
      · exact ⟨_, .misfit [] face faces (Nat.succ_pos n) (by simp) hface⟩

theorem Deals.rollMany_once {n : Nat} {faces : List UInt32}
    {result : Except Fault (List UInt32) × Script} (h : Deals sides n faces result) :
    Source.rollMany n sides (once faces) = result := by
  cases h with
  | dealt rolls rest hlen hall =>
    have hr := Script.rollMany_once hall rest
    rwa [hlen] at hr
  | misfit good value rest hlen hall hvalue =>
    exact rollMany_once_of_not_shows hall hvalue hlen rest
  | short faces hlen hall => exact rollMany_once_of_length_lt hall hlen

theorem rollMany_once_deals (sides : Sides) (n : Nat) (faces : List UInt32) :
    Deals sides n faces (Source.rollMany n sides (once faces)) := by
  obtain ⟨result, h⟩ := exists_deals sides n faces
  rwa [h.rollMany_once]

end DiceNotation.Script
