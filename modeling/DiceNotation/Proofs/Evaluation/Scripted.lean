import DiceNotation.Proofs.Evaluation.Faulted
import DiceNotation.Proofs.Evaluation.Replay

/-! Evaluation on a script, for better or worse. The records of the rolls that are made
hold the faces that are used up, in order. What is left over has no influence; a script
that is too short can be continued, since every roll has faces that fit. -/

namespace DiceNotation

open RollRecord (faces)
open Source (Supplies)

variable {limits : Limits} {e : Expr} {log : List RollRecord}

/-! ### Faces used up -/

theorem Script.of_supplies_once {script script' : Script} (h : Supplies script log script')
    {dealt : List UInt32} (hscript : script = once dealt) :
    ∃ rest, script' = once rest ∧ dealt = faces log ++ rest := by
  induction h generalizing dealt with
  | nil s => exact ⟨dealt, hscript, rfl⟩
  | @cons s t u record log hr hlog ih =>
    subst hscript
    have hdeals := rollMany_once_deals record.sides record.count.toNat dealt
    rw [hr] at hdeals
    -- A supplied record is a batch that was dealt, and the other outcomes are faults.
    cases hdeals with
    | dealt rolls rest hlen hall =>
      obtain ⟨left, hleft, hrest⟩ := ih rfl
      refine ⟨left, hleft, ?_⟩
      rw [hrest, ← List.append_assoc]
      rfl

/-! ### Continuations -/

theorem Sides.shows_one (sides : Sides) : sides.Shows 1 := by
  refine ⟨UInt32.le_refl 1, ?_⟩
  rw [UInt32.le_iff_toNat_le]
  exact sides.toNat_pos

theorem Sides.shows_sides (sides : Sides) : sides.Shows sides.toUInt32 :=
  ⟨sides.shows_one.2, UInt32.le_refl _⟩

/-- Dice without a face yet can show one. -/
theorem RollRecord.honest_fill {count : UInt64} {sides : Sides} {shown : List UInt32}
    (hlen : shown.length ≤ count.toNat) (hall : ∀ face ∈ shown, sides.Shows face) :
    RollRecord.Honest
      { count, sides, rolls := shown ++ List.replicate (count.toNat - shown.length) 1 } := by
  refine ⟨?_, List.forall_mem_append.2 ⟨hall, fun face hface => ?_⟩⟩
  · simp only [List.length_append, List.length_replicate]
    omega
  · rw [List.eq_of_mem_replicate hface]
    exact sides.shows_one

/-- All dice of the roll show the face that is chosen for their number of sides. -/
def RollRecord.Uniform (face : Sides → UInt32) (record : RollRecord) : Prop :=
  record.rolls = List.replicate record.count.toNat (face record.sides)

theorem RollRecord.Uniform.honest {face : Sides → UInt32} {record : RollRecord}
    (h : record.Uniform face) (hface : record.sides.Shows (face record.sides)) :
    record.Honest := by
  refine ⟨?_, fun f hf => ?_⟩
  · rw [h, List.length_replicate]
  · rw [h] at hf
    rwa [List.eq_of_mem_replicate hf]

namespace Expr

/-- Dice can be rolled once their operands have values. -/
theorem Explained.exists_roll {c s : Expr} {log log' : List RollRecord} {n m : Int64}
    (hc : c.Explained limits log n) (hs : s.Explained limits log' m) :
    ∃ (record : RollRecord) (v : Int64), record.Honest ∧
      (Expr.dice c s).Explained limits (log ++ (log' ++ [record])) v :=
  ⟨_, _, RollRecord.honest_fill (Nat.zero_le _) (List.forall_mem_nil _),
    .dice hc hs rfl rfl⟩

/-- Every expression has a value that is explained by dice which all show a chosen face. -/
theorem exists_explained_uniform (limits : Limits) (face : Sides → UInt32) (e : Expr) :
    ∃ log v, e.Explained limits log v ∧ ∀ record ∈ log, record.Uniform face := by
  induction e with
  | literal x => exact ⟨[], x, .literal x, by simp⟩
  | binary op l r ihl ihr =>
    obtain ⟨log, a, hl, hu⟩ := ihl
    obtain ⟨log', b, hr, hu'⟩ := ihr
    exact ⟨_, _, .binary op hl hr, List.forall_mem_append.2 ⟨hu, hu'⟩⟩
  | dice c s ihc ihs =>
    obtain ⟨log, n, hc, hu⟩ := ihc
    obtain ⟨log', m, hs, hu'⟩ := ihs
    let record : RollRecord :=
      { count := limits.clampCount n
        sides := limits.clampSides m
        rolls := List.replicate (limits.clampCount n).toNat (face (limits.clampSides m)) }
    have hrecord : record.Uniform face := rfl
    refine ⟨_, record.total, .dice hc hs rfl rfl, ?_⟩
    exact List.forall_mem_append.2
      ⟨hu, List.forall_mem_append.2 ⟨hu', List.forall_mem_singleton.2 hrecord⟩⟩

/-- Every expression has a value that faces can explain. -/
theorem exists_explained (limits : Limits) (e : Expr) :
    ∃ log v, e.Explained limits log v ∧ ∀ record ∈ log, record.Honest := by
  obtain ⟨log, v, he, hu⟩ := exists_explained_uniform limits (fun _ => 1) e
  exact ⟨log, v, he, fun record hrecord => (hu record hrecord).honest record.sides.shows_one⟩

/-- Whatever a roll comes to, the rolls after it can be made. -/
theorem LeadsTo.complete {count : UInt64} {sides : Sides} (h : e.LeadsTo limits log count sides)
    (rolls : List UInt32) :
    ∃ log' v, e.Explained limits (log ++ ⟨count, sides, rolls⟩ :: log') v ∧
      ∀ record ∈ log', record.Honest := by
  -- What the pending roll is an operand of comes later, and its other operand either has
  -- a value already or has one by `exists_explained`.
  induction h with
  | @left l r log count sides op hlead ih =>
    obtain ⟨log', a, hl, hh⟩ := ih
    obtain ⟨log'', b, hr, hh'⟩ := exists_explained limits r
    have he := hl.binary op hr
    rw [List.append_assoc] at he
    exact ⟨_, _, he, List.forall_mem_append.2 ⟨hh, hh'⟩⟩
  | right op hl hlead ih =>
    obtain ⟨log', b, hr, hh⟩ := ih
    have he := hl.binary op hr
    rw [← List.append_assoc] at he
    exact ⟨_, _, he, hh⟩
  | @ofCount c s log count sides hlead ih =>
    obtain ⟨log', n, hc, hh⟩ := ih
    obtain ⟨log'', m, hs, hh'⟩ := exists_explained limits s
    obtain ⟨record, v, hrecord, he⟩ := hc.exists_roll hs
    rw [List.append_assoc] at he
    refine ⟨_, _, he, List.forall_mem_append.2 ⟨hh, List.forall_mem_append.2 ⟨hh', ?_⟩⟩⟩
    exact List.forall_mem_singleton.2 hrecord
  | @ofSides c s log log' n count sides hc hlead ih =>
    obtain ⟨log'', m, hs, hh⟩ := ih
    obtain ⟨record, v, hrecord, he⟩ := hc.exists_roll hs
    rw [List.append_assoc, List.cons_append, ← List.append_assoc] at he
    refine ⟨_, _, he, List.forall_mem_append.2 ⟨hh, ?_⟩⟩
    exact List.forall_mem_singleton.2 hrecord
  | @roll c s log log' n m hc hs =>
    have he : (Expr.dice c s).Explained limits (log ++ (log' ++
        [{ count := limits.clampCount n, sides := limits.clampSides m, rolls }])) _ :=
      .dice hc hs rfl rfl
    rw [← List.append_assoc] at he
    exact ⟨[], _, he, by simp⟩

/-- Where fewer faces have been handed out than the pending roll has dice, there are
faces to go on with. -/
theorem LeadsTo.exists_more {reading : Reading} {count : UInt64} {sides : Sides}
    (hlead : reading.tree.LeadsTo limits log count sides) (hh : ∀ record ∈ log, record.Honest)
    {shown : List UInt32} (hlen : shown.length < count.toNat)
    (hall : ∀ face ∈ shown, sides.Shows face) :
    ∃ more E, reading.evaluate (Script.once (faces log ++ shown ++ more)) limits =
      (.ok E, Script.once []) := by
  -- The pending roll is filled with ones, which every die can show.
  have hrecord := RollRecord.honest_fill (Nat.le_of_lt hlen) hall
  obtain ⟨log', v, he, hh'⟩ := hlead.complete
    (shown ++ List.replicate (count.toNat - shown.length) 1)
  have hall := List.forall_mem_append.2 ⟨hh, List.forall_mem_cons.2 ⟨hrecord, hh'⟩⟩
  have hsupplies := Script.supplies_once hall []
  rw [List.append_nil, RollRecord.faces_append, RollRecord.faces_cons, List.append_assoc,
    ← List.append_assoc] at hsupplies
  exact ⟨_, { total := v, log := _, math := reading.math },
    Reading.evaluate_eq_ok.2 ⟨rfl, he, hsupplies⟩⟩

end Expr

/-! ### The three outcomes of an evaluation -/

namespace Reading

variable {reading : Reading} {script : Script} {dealt : List UInt32}

open Script (once)

/-- The faces of the log are used up, and those after them are left. -/
theorem evaluate_once_of_ok {E : Evaluation}
    (h : reading.evaluate (once dealt) limits = (.ok E, script)) :
    ∃ rest, dealt = E.faces ++ rest ∧ script = once rest ∧
      ∀ more, reading.evaluate (once (dealt ++ more)) limits = (.ok E, once (rest ++ more)) := by
  obtain ⟨hmath, he, hs⟩ := evaluate_eq_ok.1 h
  obtain ⟨rest, hrest, hdealt⟩ := Script.of_supplies_once hs rfl
  refine ⟨rest, hdealt, hrest, fun more => evaluate_eq_ok.2 ⟨hmath, he, ?_⟩⟩
  rw [hdealt, List.append_assoc]
  exact Script.supplies_once (hs.honest Script.honest) (rest ++ more)

/-- The face that does not fit is the last one used up. -/
theorem evaluate_once_of_outOfRange {value : UInt32} {sides : Sides}
    (h : reading.evaluate (once dealt) limits = (.error (.outOfRange value sides), script)) :
    ∃ good rest, dealt = good ++ value :: rest ∧ script = once rest ∧ ¬sides.Shows value ∧
      sides.toNat ≤ limits.maxSides.toNat ∧
      reading.evaluate (once good) limits = (.error .exhausted, once []) ∧
      ∀ more, reading.evaluate (once (dealt ++ more)) limits =
        (.error (.outOfRange value sides), once (rest ++ more)) := by
  obtain ⟨log, count, sides, t, hlead, hs, hr⟩ := evaluate_eq_error.1 h
  obtain ⟨tail, rfl, rfl⟩ := Script.of_supplies_once hs rfl
  have hdeals := Script.rollMany_once_deals sides count.toNat tail
  rw [hr] at hdeals
  cases hdeals with
  | misfit good value rest hlen hall hvalue =>
    have hh := hs.honest Script.honest
    refine ⟨faces log ++ good, rest, (List.append_assoc ..).symm, rfl, hvalue, hlead.within.2,
      ?_, ?_⟩
    · exact evaluate_eq_error.2 ⟨log, count, _, _, hlead, Script.supplies_once hh good,
        Script.rollMany_once_of_length_lt hall hlen⟩
    · intro more
      rw [List.append_assoc, List.append_assoc, List.cons_append]
      exact evaluate_eq_error.2 ⟨log, count, _, _, hlead, Script.supplies_once hh _,
        Script.rollMany_once_of_not_shows hall hvalue hlen _⟩

/-- All faces are used up, and there are faces to go on with. -/
theorem evaluate_once_of_exhausted
    (h : reading.evaluate (once dealt) limits = (.error .exhausted, script)) :
    script = once [] ∧
      ∃ more E, reading.evaluate (once (dealt ++ more)) limits = (.ok E, once []) := by
  obtain ⟨log, count, sides, t, hlead, hs, hr⟩ := evaluate_eq_error.1 h
  obtain ⟨tail, rfl, rfl⟩ := Script.of_supplies_once hs rfl
  have hdeals := Script.rollMany_once_deals sides count.toNat tail
  rw [hr] at hdeals
  cases hdeals with
  | short _ hlen hall =>
    exact ⟨rfl, hlead.exists_more (hs.honest Script.honest) hlen hall⟩

end Reading

/-- An evaluation on a script succeeds, meets a face that does not fit, or lacks faces.
A success uses up the faces of its log. A fault uses up all faces up to the one that does
not fit, in front of which the script would have been too short. A script that is too
short is used up, and a longer one succeeds. Faces that are not reached do not matter. -/
theorem evaluate_script_outcome (reading : Reading) (limits : Limits) (dealt : List UInt32) :
    match reading.evaluate (Script.once dealt) limits with
    | (.ok E, script) =>
      ∃ rest, dealt = E.faces ++ rest ∧ script = Script.once rest ∧
        ∀ more, reading.evaluate (Script.once (dealt ++ more)) limits =
          (.ok E, Script.once (rest ++ more))
    | (.error (.outOfRange value sides), script) =>
      ∃ good rest, dealt = good ++ value :: rest ∧ script = Script.once rest ∧
        ¬(1 ≤ value ∧ value ≤ sides.toUInt32) ∧ 1 ≤ sides.toNat ∧
        sides.toNat ≤ limits.maxSides.toNat ∧
        reading.evaluate (Script.once good) limits = (.error .exhausted, Script.once []) ∧
        ∀ more, reading.evaluate (Script.once (dealt ++ more)) limits =
          (.error (.outOfRange value sides), Script.once (rest ++ more))
    | (.error .exhausted, script) =>
      script = Script.once [] ∧
        ∃ more E, reading.evaluate (Script.once (dealt ++ more)) limits =
          (.ok E, Script.once []) := by
  rcases h : reading.evaluate (Script.once dealt) limits with ⟨⟨_ | ⟨value, sides⟩⟩ | E, script⟩
  · exact Reading.evaluate_once_of_exhausted h
  · obtain ⟨good, rest, hdealt, hscript, hvalue, hsides, hgood, hmore⟩ :=
      Reading.evaluate_once_of_outOfRange h
    exact ⟨good, rest, hdealt, hscript, hvalue, sides.toNat_pos, hsides, hgood, hmore⟩
  · exact Reading.evaluate_once_of_ok h

end DiceNotation
