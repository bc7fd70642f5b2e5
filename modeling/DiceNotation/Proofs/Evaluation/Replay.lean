import DiceNotation.Proofs.Evaluation.Explained
import DiceNotation.Proofs.Source.Honest
import DiceNotation.Proofs.Source.Script

/-! Replaying an evaluation from its log. The faces that the log holds, put in a script,
are drawn again in the same batches: the script supplies the log, and what explains the
total does not mention the source. A script cut short is used up and found wanting. -/

namespace DiceNotation

/-! ### Recorded faces -/

/-- As many faces as dice, all of them on the die. -/
def RollRecord.Honest (record : RollRecord) : Prop :=
  record.rolls.length = record.count.toNat ∧ ∀ face ∈ record.rolls, record.sides.Shows face

/-- The faces of all rolls, in the order in which they were drawn. -/
def RollRecord.faces (log : List RollRecord) : List UInt32 := log.flatMap RollRecord.rolls

def Evaluation.faces (E : Evaluation) : List UInt32 := RollRecord.faces E.log

open RollRecord (faces)
open Source (Supplies)

variable {limits : Limits} {log log' : List RollRecord} {record : RollRecord}

theorem RollRecord.faces_append : faces (log ++ log') = faces log ++ faces log' :=
  List.flatMap_append

theorem RollRecord.faces_cons : faces (record :: log) = record.rolls ++ faces log :=
  List.flatMap_cons

theorem RollRecord.faces_singleton : faces [record] = record.rolls := List.append_nil _

theorem Source.Supplies.honest {σ : Type} [Source σ] (h : Source.Honest σ) {s t : σ}
    (hs : Supplies s log t) : ∀ record ∈ log, record.Honest := by
  induction hs with
  | nil s => simp
  | cons hr hlog ih =>
    intro record hrecord
    rcases List.mem_cons.1 hrecord with rfl | hrecord
    · exact h _ _ _ _ _ hr
    · exact ih record hrecord

/-! ### Scripts of recorded faces -/

theorem Script.supplies_once (h : ∀ record ∈ log, record.Honest) (extra : List UInt32) :
    Supplies (once (faces log ++ extra)) log (once extra) := by
  induction log with
  | nil => exact .nil _
  | cons record log ih =>
    obtain ⟨hlen, hall⟩ := h record List.mem_cons_self
    have hrest := ih fun r hr => h r (List.mem_cons_of_mem record hr)
    refine .cons ?_ hrest
    have hr := rollMany_once hall (faces log ++ extra)
    rwa [hlen, ← List.append_assoc] at hr

/-! ### Scripts cut short -/

/-- Two lists in a row, cut short, are the first cut short or the second. -/
theorem take_append_of_lt {α : Type} {xs ys : List α} {k : Nat} (hk : k < (xs ++ ys).length) :
    (k < xs.length ∧ (xs ++ ys).take k = xs.take k) ∨
      ∃ j < ys.length, (xs ++ ys).take k = xs ++ ys.take j := by
  rw [List.length_append] at hk
  by_cases hx : k < xs.length
  · exact .inl ⟨hx, List.take_append_of_le_length (Nat.le_of_lt hx)⟩
  · refine .inr ⟨k - xs.length, by omega, ?_⟩
    rw [List.take_append, List.take_of_length_le (by omega)]

/-- Evaluation stops at the roll for which the script is too short. -/
theorem Expr.Explained.eval_take {e : Expr} {v : Int64} (h : e.Explained limits log v)
    (hh : ∀ record ∈ log, record.Honest) {k : Nat} (hk : k < (faces log).length)
    (table : Table Script) (htable : table.source = Script.once ((faces log).take k)) :
    ∃ after, e.eval limits table = (.error .exhausted, after) ∧ after.source = Script.once [] := by
  induction h generalizing k table with
  | literal x => exact absurd hk (Nat.not_lt_zero k)
  | @binary l r log log' a b op hl hr ihl ihr =>
    have hhl := fun r hr => hh r (List.mem_append_left log' hr)
    have hhr := fun r hr => hh r (List.mem_append_right log hr)
    rw [RollRecord.faces_append] at hk htable
    rcases take_append_of_lt hk with ⟨hk, htake⟩ | ⟨j, hj, htake⟩
    · obtain ⟨after, hfail, hafter⟩ := ihl hhl hk table (htable.trans (congrArg Script.once htake))
      exact ⟨after, by rw [Expr.eval, Draw.bind_of_error hfail], hafter⟩
    · have hsupply := Script.supplies_once hhl ((faces log').take j)
      rw [← htake, ← htable] at hsupply
      obtain ⟨after, hfail, hafter⟩ :=
        ihr hhr hj (table.extend log (Script.once ((faces log').take j))) rfl
      exact ⟨after, by rw [Expr.eval, Draw.bind_of_ok (hl.eval table hsupply),
        Draw.bind_of_error hfail], hafter⟩
  | @dice c s log log' n m record hc hs hcount hsides ihc ihs =>
    have hhc := fun r hr => hh r (List.mem_append_left (log' ++ [record]) hr)
    have hhs := fun r hr => hh r (List.mem_append_right log (List.mem_append_left [record] hr))
    obtain ⟨hlen, hall⟩ := hh record (by simp)
    rw [RollRecord.faces_append, RollRecord.faces_append, RollRecord.faces_singleton] at hk htable
    rw [Expr.eval]
    rcases take_append_of_lt hk with ⟨hk, htake⟩ | ⟨j, hj, htake⟩
    · obtain ⟨after, hfail, hafter⟩ := ihc hhc hk table (htable.trans (congrArg Script.once htake))
      exact ⟨after, Draw.bind_of_error hfail, hafter⟩
    · have hsupply := Script.supplies_once hhc ((faces log' ++ record.rolls).take j)
      rw [← htake, ← htable] at hsupply
      rw [Draw.bind_of_ok (hc.eval table hsupply)]
      rcases take_append_of_lt hj with ⟨hj, htake⟩ | ⟨i, hi, htake⟩
      · obtain ⟨after, hfail, hafter⟩ := ihs hhs hj
          (table.extend log (Script.once ((faces log' ++ record.rolls).take j)))
          (congrArg Script.once htake)
        exact ⟨after, Draw.bind_of_error hfail, hafter⟩
      · have hsides' := hs.eval
          (table.extend log (Script.once (faces log' ++ record.rolls.take i)))
          (Script.supplies_once hhs (record.rolls.take i))
        have hshort : (record.rolls.take i).length < record.count.toNat := by
          rw [List.length_take]
          omega
        have hroll := Script.rollMany_once_of_length_lt
          (fun face hface => hall face (List.mem_of_mem_take hface)) hshort
        rw [htake, Draw.bind_of_ok hsides', ← hcount, ← hsides]
        exact ⟨_, Table.roll_of_error hroll, rfl⟩

/-! ### Replay -/

/-- On an honest source, and those of this library are honest, an evaluation that
succeeds is repeated by the script of its faces: to the same outcome, with no face too
many, and with none too few. -/
theorem evaluate_replay :
    (Source.Honest Words ∧ Source.Honest Script ∧ Source.Honest Stepping) ∧
    ∀ {σ : Type} [Source σ], Source.Honest σ →
      ∀ {reading : Reading} {limits : Limits} {source source' : σ} {E : Evaluation},
        reading.evaluate source limits = (.ok E, source') →
          reading.evaluate (Script.once E.faces) limits = (.ok E, Script.once []) ∧
          (∀ extra, reading.evaluate (Script.once (E.faces ++ extra)) limits =
            (.ok E, Script.once extra)) ∧
          ∀ faces, faces <+: E.faces → faces ≠ E.faces →
            reading.evaluate (Script.once faces) limits = (.error .exhausted, Script.once []) := by
  refine ⟨⟨Words.honest, Script.honest, Stepping.honest⟩, ?_⟩
  intro σ _ honest reading limits source source' E h
  obtain ⟨hmath, he, hs⟩ := Reading.evaluate_eq_ok.1 h
  have hh := hs.honest honest
  have hextra (extra : List UInt32) : reading.evaluate (Script.once (E.faces ++ extra)) limits =
      (.ok E, Script.once extra) :=
    Reading.evaluate_eq_ok.2 ⟨hmath, he, Script.supplies_once hh extra⟩
  refine ⟨?_, hextra, ?_⟩
  · have hnone := hextra []
    rwa [List.append_nil] at hnone
  · intro faces hinit hne
    have hlt : faces.length < E.faces.length :=
      Nat.lt_of_le_of_ne hinit.length_le fun hlen => hne (hinit.eq_of_length hlen)
    obtain ⟨after, hfail, hafter⟩ := he.eval_take hh hlt { source := Script.once faces }
      (congrArg Script.once (List.prefix_iff_eq_take.1 hinit))
    rw [Reading.evaluate_of_eval hfail, hafter]
    rfl

/-- The first die thrown from the words is the number of the dice that follow. -/
theorem evaluate_replay_nested_dice :
    ∃ (reading : Reading) (E : Evaluation),
      reading.tree = .dice (.dice (.literal 1) (.literal 4)) (.literal 6) ∧
      E.total = 7 ∧ E.faces = [3, 1, 2, 4] ∧ Source.Honest Words ∧
      reading.evaluate (Words.mk [0x80000000, 0, 0x40000000, 0x80000000, 7]) {} =
        (.ok E, ⟨[7]⟩) ∧
      reading.evaluate (Script.once [3, 1, 2, 4]) {} = (.ok E, Script.once []) ∧
      reading.evaluate (Script.once [3, 1, 2, 4, 9]) {} = (.ok E, Script.once [9]) ∧
      reading.evaluate (Script.once [3, 1, 2]) {} = (.error .exhausted, Script.once []) := by
  have heval : (Reading.mk (.dice (.dice (.literal 1) (.literal 4)) (.literal 6))
      "( d 4 ) d 6").evaluate (Words.mk [0x80000000, 0, 0x40000000, 0x80000000, 7]) {} =
      (.ok { total := 7
             log := [⟨1, Sides.ofNat 4 (by decide) (by decide), [3]⟩,
               ⟨3, Sides.ofNat 6 (by decide) (by decide), [1, 2, 4]⟩]
             math := "( d 4 ) d 6" }, ⟨[7]⟩) := by rfl
  obtain ⟨hsame, hextra, hshort⟩ := evaluate_replay.2 Words.honest heval
  exact ⟨_, _, rfl, rfl, rfl, Words.honest, heval, hsame, hextra [9],
    hshort [3, 1, 2] (by decide) (by decide)⟩

end DiceNotation
