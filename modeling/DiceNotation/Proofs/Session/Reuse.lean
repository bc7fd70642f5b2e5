import DiceNotation.Proofs.Evaluation.Scripted

/-! One session for many evaluations. Whatever came before, each evaluation is that of a
session just started on the source as it is by then, and leaves such a session behind;
what an evaluation takes from the source stays taken, also when it fails. -/

namespace DiceNotation

open Source (Supplies)

variable {σ : Type} [Source σ]

namespace Session

/-! ### One evaluation -/

/-- What lies on the table has no influence, and is gone afterwards. -/
theorem evaluate_eq (session : Session σ) (reading : Reading) :
    session.evaluate reading =
      ((reading.evaluate session.source session.limits).1,
        start session.limits (reading.evaluate session.source session.limits).2) := rfl

/-! ### Many evaluations -/

def outcomes (session : Session σ) (readings : List Reading) : List (Except Fault Evaluation) :=
  (session.evaluateAll readings).1

def after (session : Session σ) (readings : List Reading) : Session σ :=
  (session.evaluateAll readings).2

variable (session : Session σ) (reading : Reading) (readings readings' : List Reading)

@[simp] theorem outcomes_nil : session.outcomes [] = [] := rfl

@[simp] theorem after_nil : session.after [] = session := rfl

@[simp] theorem outcomes_cons : session.outcomes (reading :: readings) =
    (session.evaluate reading).1 :: (session.evaluate reading).2.outcomes readings := rfl

@[simp] theorem after_cons : session.after (reading :: readings) =
    (session.evaluate reading).2.after readings := rfl

theorem after_append :
    session.after (readings ++ readings') = (session.after readings).after readings' := by
  induction readings generalizing session with
  | nil => rfl
  | cons reading readings ih => exact ih _

theorem outcomes_append : session.outcomes (readings ++ readings') =
    session.outcomes readings ++ (session.after readings).outcomes readings' := by
  induction readings generalizing session with
  | nil => rfl
  | cons reading readings ih => simp [ih]

theorem length_outcomes : (session.outcomes readings).length = readings.length := by
  induction readings generalizing session with
  | nil => rfl
  | cons reading readings ih => simp [ih]

theorem outcomes_getElem? :
    (session.outcomes (readings ++ reading :: readings'))[readings.length]? =
      some ((session.after readings).evaluate reading).1 := by
  rw [outcomes_append, ← session.length_outcomes readings,
    List.getElem?_append_right (Nat.le_refl _), Nat.sub_self]
  rfl

/-- A session that starts with an empty table has one after every evaluation. -/
theorem after_start (limits : Limits) (source : σ) :
    ∃ source', (start limits source).after readings = start limits source' := by
  induction readings generalizing source with
  | nil => exact ⟨source, rfl⟩
  | cons reading readings ih => exact ih _

end Session

/-! ### Faces taken -/

/-- `Takes given outcome left`: of the faces `given`, an evaluation that comes to `outcome`
leaves the faces `left`. It takes the faces of its log, or all faces up to the one that did
not fit, or all that there are if more are asked for. -/
inductive Evaluation.Takes : List UInt32 → Except Fault Evaluation → List UInt32 → Prop
  | ok (E : Evaluation) (left : List UInt32) : Takes (E.faces ++ left) (.ok E) left
  | outOfRange (good : List UInt32) (value : UInt32) (sides : Sides) (left : List UInt32) :
      Takes (good ++ value :: left) (.error (.outOfRange value sides)) left
  | exhausted (given : List UInt32) : Takes given (.error .exhausted) []

/-- One evaluation after the other; each is given the faces that the one before it left. -/
inductive Session.Takes : List UInt32 → List (Except Fault Evaluation) → List UInt32 → Prop
  | nil (faces : List UInt32) : Takes faces [] faces
  | cons {given middle left outcome outcomes} (h : Evaluation.Takes given outcome middle)
      (hs : Takes middle outcomes left) : Takes given (outcome :: outcomes) left

theorem Evaluation.Takes.isSuffix {given left : List UInt32} {outcome : Except Fault Evaluation}
    (h : Takes given outcome left) : left <:+ given := by
  cases h with
  | ok E left => exact List.suffix_append _ _
  | outOfRange good value sides left =>
    exact (List.suffix_cons value left).trans (List.suffix_append _ _)
  | exhausted given => exact List.nil_suffix

/-- No face comes back. -/
theorem Session.Takes.isSuffix {given left : List UInt32}
    {outcomes : List (Except Fault Evaluation)} (h : Takes given outcomes left) :
    left <:+ given := by
  induction h with
  | nil faces => exact List.suffix_rfl
  | cons h hs ih => exact ih.trans h.isSuffix

theorem Reading.exists_takes (reading : Reading) (limits : Limits) (faces : List UInt32) :
    ∃ left, Evaluation.Takes faces (reading.evaluate (Script.once faces) limits).1 left ∧
      (reading.evaluate (Script.once faces) limits).2 = Script.once left := by
  rcases h : reading.evaluate (Script.once faces) limits with ⟨⟨_ | ⟨value, sides⟩⟩ | E, script⟩
  · obtain ⟨hscript, -⟩ := evaluate_once_of_exhausted h
    exact ⟨[], .exhausted faces, hscript⟩
  · obtain ⟨good, rest, rfl, hscript, -⟩ := evaluate_once_of_outOfRange h
    exact ⟨rest, .outOfRange good value sides rest, hscript⟩
  · obtain ⟨rest, rfl, hscript, -⟩ := evaluate_once_of_ok h
    exact ⟨rest, .ok E rest, hscript⟩

theorem Session.exists_takes (limits : Limits) (faces : List UInt32) (readings : List Reading) :
    ∃ left, Takes faces ((start limits (Script.once faces)).outcomes readings) left ∧
      (start limits (Script.once faces)).after readings = start limits (Script.once left) := by
  induction readings generalizing faces with
  | nil => exact ⟨faces, .nil faces, rfl⟩
  | cons reading readings ih =>
    obtain ⟨middle, htakes, hmiddle⟩ := reading.exists_takes limits faces
    obtain ⟨left, hlater, hleft⟩ := ih middle
    have hnext : (start limits (Script.once faces)).evaluate reading =
        ((reading.evaluate (Script.once faces) limits).1, start limits (Script.once middle)) :=
      congrArg (fun script => (_, start limits script)) hmiddle
    refine ⟨left, ?_, ?_⟩
    · rw [outcomes_cons, hnext]
      exact .cons htakes hlater
    · rw [after_cons, hnext]
      exact hleft

/-! ### Reuse -/

/-- In a session, every evaluation has the outcome of a new session on the source that
those before it left, and the table is empty after it. Its log holds the rolls of its
expression, as the source supplied them meanwhile, and nothing else. The source stays where
these rolls leave it; and where an evaluation fails, it stays where the rolls completed and
then the one that failed leave it. So on a script each evaluation starts with the faces
that the one before it left, and no face is taken twice, whichever evaluations fail. -/
theorem evaluateAll_fresh (limits : Limits) :
    (∀ {σ : Type} [Source σ] (source : σ) (earlier : List Reading) (reading : Reading)
        (later : List Reading),
      let session := Session.start limits source
      let before := (session.evaluateAll earlier).2
      let after := (session.evaluateAll (earlier ++ [reading])).2
      let fresh := reading.evaluate before.source limits
      (session.evaluateAll (earlier ++ reading :: later)).1[earlier.length]? = some fresh.1 ∧
      after.source = fresh.2 ∧ after.log = [] ∧ after.limits = limits ∧
      match fresh.1 with
      | .ok E => E.math = reading.math ∧ reading.tree.Explained limits E.log E.total ∧
        Supplies before.source E.log after.source
      | .error fault => ∃ log count sides s, reading.tree.LeadsTo limits log count sides ∧
        Supplies before.source log s ∧
        Source.rollMany count.toNat sides s = (.error fault, after.source)) ∧
    ∀ (faces : List UInt32) (readings : List Reading),
      let session := Session.start limits (Script.once faces)
      ∃ left, Session.Takes faces (session.evaluateAll readings).1 left ∧ left <:+ faces ∧
        (session.evaluateAll readings).2.source = Script.once left := by
  constructor
  · intro σ _ source earlier reading later session before after fresh
    have hlimits : before.limits = limits := by
      obtain ⟨source', hbefore⟩ := Session.after_start earlier limits source
      exact congrArg (·.limits) hbefore
    have hone : before.evaluate reading = (fresh.1, Session.start limits fresh.2) := by
      rw [Session.evaluate_eq, hlimits]
    have hafter : after = Session.start limits fresh.2 := by
      have happend : after = before.after [reading] := session.after_append earlier [reading]
      rw [happend, Session.after_cons, hone, Session.after_nil]
    have houtcome : (session.evaluateAll (earlier ++ reading :: later)).1[earlier.length]? =
        some (before.evaluate reading).1 := session.outcomes_getElem? reading earlier later
    rw [hone] at houtcome
    rw [hafter]
    exact ⟨houtcome, rfl, rfl, rfl, reading.evaluate_source before.source limits⟩
  · intro faces readings session
    obtain ⟨left, htakes, hleft⟩ := Session.exists_takes limits faces readings
    exact ⟨left, htakes, htakes.isSuffix, congrArg (·.source) hleft⟩

/-- After a roll that met the face nine, the faces two and nine are gone; after one for which
there were too few faces, all are. -/
theorem evaluateAll_fresh_after_fault :
    let roll (n s : Int64) : Reading := { tree := .dice (.literal n) (.literal s), math := "" }
    let session := Session.start {} (Script.once [2, 9, 3, 4, 4])
    ∃ E : Evaluation, RollRecord.faces E.log = [3] ∧
      (session.evaluateAll [roll 2 6]).2.source = Script.once [3, 4, 4] ∧
      (roll 1 4).evaluate (Script.once [3, 4, 4]) {} = (.ok E, Script.once [4, 4]) ∧
      (session.evaluateAll [roll 2 6, roll 1 4, roll 3 6]).1[1]? = some (.ok E) ∧
      (session.evaluateAll [roll 2 6, roll 1 4]).2 = Session.start {} (Script.once [4, 4]) ∧
      (E.math = "" ∧ (roll 1 4).tree.Explained {} E.log E.total ∧
        Supplies (Script.once [3, 4, 4]) E.log (Script.once [4, 4])) ∧
      (∃ log count sides s, (roll 3 6).tree.LeadsTo {} log count sides ∧
        Supplies (Script.once [4, 4]) log s ∧
        Source.rollMany count.toNat sides s = (.error .exhausted, Script.once [])) ∧
      (session.evaluateAll [roll 2 6, roll 1 4, roll 3 6]).2 = Session.start {} (Script.once []) ∧
      Session.Takes [2, 9, 3, 4, 4]
        (session.evaluateAll [roll 2 6, roll 1 4, roll 3 6]).1 [] := by
  intro roll session
  have hfresh : (roll 1 4).evaluate (Script.once [3, 4, 4]) {} =
      (.ok { total := 3, log := [⟨1, Sides.ofNat 4 (by decide) (by decide), [3]⟩], math := "" },
        Script.once [4, 4]) := by rfl
  obtain ⟨hsessions, hscripts⟩ := evaluateAll_fresh {}
  obtain ⟨houtcome, -, -, -, hok⟩ :=
    hsessions (Script.once [2, 9, 3, 4, 4]) [roll 2 6] (roll 1 4) [roll 3 6]
  obtain ⟨-, -, -, -, hfault⟩ :=
    hsessions (Script.once [2, 9, 3, 4, 4]) [roll 2 6, roll 1 4] (roll 3 6) []
  obtain ⟨left, htakes, -, hleft⟩ :=
    hscripts [2, 9, 3, 4, 4] [roll 2 6, roll 1 4, roll 3 6]
  cases hleft
  exact ⟨_, rfl, rfl, hfresh, houtcome, rfl, hok, hfault, rfl, htakes⟩

end DiceNotation
