import DiceNotation.Proofs.Source.Honest

/-! The faces that a script hands out. A script under watch notes them, and leaves out
the face that does not fit; every script that starts with these faces, whether it is
played once or over and over, deals the same batches. -/

namespace DiceNotation.Script

variable {sides : Sides}

/-! ### Scripts under watch -/

/-- A script with the faces that it has handed out, the earliest first. -/
structure Watched where
  script : Script
  accepted : List UInt32 := []
  deriving DecidableEq, Repr

namespace Watched

def roll (sides : Sides) : Draw Watched UInt32 := fun w =>
  match Script.roll sides w.script with
  | (.ok face, script) => (.ok face, { script, accepted := w.accepted ++ [face] })
  | (.error fault, script) => (.error fault, { w with script })

instance : Source Watched := { roll }

theorem roll_of_ok {s t : Script} {face : UInt32} (h : Script.roll sides s = (.ok face, t))
    (before : List UInt32) :
    roll sides ⟨s, before⟩ = (.ok face, ⟨t, before ++ [face]⟩) := by
  simp only [roll, h]

theorem roll_of_error {s t : Script} {fault : Fault}
    (h : Script.roll sides s = (.error fault, t)) (before : List UInt32) :
    roll sides ⟨s, before⟩ = (.error fault, ⟨t, before⟩) := by
  simp only [roll, h]

theorem repeats {s t : Script} {rolls : List UInt32}
    (h : (Script.roll sides).Repeats s rolls t) (before : List UInt32) :
    (roll sides).Repeats ⟨s, before⟩ rolls ⟨t, before ++ rolls⟩ := by
  induction h generalizing before with
  | nil s =>
    rw [List.append_nil]
    exact .nil _
  | @cons s t u face rolls hface hs ih =>
    have hrest := ih (before ++ [face])
    rw [List.append_assoc] at hrest
    exact .cons (roll_of_ok hface before) hrest

theorem rollMany_of_ok {n : Nat} {s t : Script} {rolls : List UInt32}
    (h : Source.rollMany n sides s = (.ok rolls, t)) (before : List UInt32) :
    Source.rollMany n sides (Watched.mk s before) = (.ok rolls, ⟨t, before ++ rolls⟩) := by
  obtain ⟨hlen, hs⟩ := Draw.times_eq_ok.1 h
  exact Draw.times_eq_ok.2 ⟨hlen, repeats hs before⟩

/-- A batch that fails has handed out fewer faces than it has dice. -/
theorem rollMany_of_error {n : Nat} {s t : Script} {fault : Fault}
    (h : Source.rollMany n sides s = (.error fault, t)) (before : List UInt32) :
    ∃ shown : List UInt32, shown.length < n ∧ (∀ face ∈ shown, sides.Shows face) ∧
      Source.rollMany n sides (Watched.mk s before) = (.error fault, ⟨t, before ++ shown⟩) := by
  obtain ⟨shown, u, hlen, hs, hfault⟩ := Draw.times_eq_error.1 h
  refine ⟨shown, hlen, hs.forall_mem fun _ _ _ hface => roll_shows hface, ?_⟩
  exact Draw.times_eq_error.2
    ⟨shown, _, hlen, repeats hs before, roll_of_error hfault (before ++ shown)⟩

end Watched

/-! ### The first faces of a script -/

/-- The next faces of the script, one after the other. -/
def Starts : Script → List UInt32 → Prop
  | _, [] => True
  | script, face :: faces => ∃ rest, script.next? = some (face, rest) ∧ rest.Starts faces

theorem starts_once (faces more : List UInt32) : (once (faces ++ more)).Starts faces := by
  induction faces with
  | nil => trivial
  | cons face faces ih => exact ⟨once (faces ++ more), rfl, ih⟩

theorem Starts.rollMany {rolls more : List UInt32} (hall : ∀ face ∈ rolls, sides.Shows face)
    {s : Script} (h : s.Starts (rolls ++ more)) :
    ∃ t, Source.rollMany rolls.length sides s = (.ok rolls, t) ∧ t.Starts more := by
  change ∃ t, (Script.roll sides).times rolls.length s = _ ∧ _
  induction rolls generalizing s with
  | nil => exact ⟨s, rfl, h⟩
  | cons face rolls ih =>
    obtain ⟨hface, hall⟩ := List.forall_mem_cons.1 hall
    obtain ⟨rest, hnext, hrest⟩ := h
    obtain ⟨t, ht, hmore⟩ := ih hall hrest
    have hroll : Script.roll sides s = (.ok face, rest) := by
      simp only [Script.roll, hnext, if_pos hface]
    refine ⟨t, ?_, hmore⟩
    rw [List.length_cons, Draw.times, Draw.bind_of_ok hroll, Draw.bind_of_ok ht, Draw.pure_apply]

end DiceNotation.Script
