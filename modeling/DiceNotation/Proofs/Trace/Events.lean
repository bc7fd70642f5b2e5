import DiceNotation.Proofs.Evaluation.Scripted
import DiceNotation.Proofs.Evaluation.Settled
import DiceNotation.Proofs.Source.Accepted
import DiceNotation.Trace

/-! The events of an evaluation against its outcome. A success shows the rolls of its log
and the total, a fault the rolls that were completed before it. What happens next is
determined by the faces so far: an evaluation that gets past the fault starts with the
same rolls and goes on to more. -/

namespace DiceNotation

open RollRecord (faces)
open Source (Supplies)

variable {limits : Limits} {log : List RollRecord}

/-! ### Rolls on a script -/

/-- A supply is handed out face by face. -/
theorem Script.Watched.supplies {s t : Script} (h : Supplies s log t) (before : List UInt32) :
    Supplies (Watched.mk s before) log (Watched.mk t (before ++ faces log)) := by
  induction h generalizing before with
  | nil s =>
    have hnone : faces [] = [] := rfl
    rw [hnone, List.append_nil]
    exact .nil _
  | @cons s t u record log hr hlog ih =>
    have hrest := ih (before ++ record.rolls)
    rw [List.append_assoc, ← RollRecord.faces_cons] at hrest
    exact .cons (rollMany_of_ok hr before) hrest

/-- A script that starts with the faces of a log supplies the log. -/
theorem Script.Starts.supplies (hh : ∀ record ∈ log, record.Honest) {more : List UInt32}
    {s : Script} (h : s.Starts (faces log ++ more)) : ∃ t, Supplies s log t ∧ t.Starts more := by
  induction log generalizing s with
  | nil => exact ⟨s, .nil s, h⟩
  | cons record log ih =>
    obtain ⟨⟨hlen, hall⟩, hh⟩ := List.forall_mem_cons.1 hh
    rw [RollRecord.faces_cons, List.append_assoc] at h
    obtain ⟨u, hu, hrest⟩ := h.rollMany hall
    obtain ⟨t, ht, hmore⟩ := ih hh hrest
    rw [hlen] at hu
    exact ⟨t, .cons hu ht, hmore⟩

/-! ### Events -/

namespace Event

/-- The texts of the rolls that the events show. -/
def rollTexts (events : List Event) : List String :=
  events.filterMap fun event => event.entry.fields.lookup "roll"

/-- The events before the first roll: the text with its limits, and what was read. -/
def opening (text : String) (limits : Limits) : List Event :=
  [.began text limits,
    .parsed (Token.normalize (Token.tokenize text)) (Expr.ofTokens (Token.tokenize text))]

theorem rollTexts_append (events events' : List Event) :
    rollTexts (events ++ events') = rollTexts events ++ rollTexts events' :=
  List.filterMap_append

theorem rollTexts_opening (text : String) (limits : Limits) :
    rollTexts (opening text limits) = [] := rfl

theorem rollTexts_rolled (log : List RollRecord) :
    rollTexts (log.map .rolled) = log.map RollRecord.text := by
  induction log with
  | nil => rfl
  | cons record log ih => exact congrArg (record.text :: ·) ih

theorem rollTexts_evaluated (total : Int64) (rolls : Nat) :
    rollTexts [.evaluated total rolls] = [] := rfl

end Event

open Event (rollTexts opening)

section Runs
variable {σ : Type} [Source σ] {text : String} {source source' : σ} {fault : Fault}

/-- To be observed does not change an evaluation. -/
theorem trace_snd (text : String) (source : σ) (limits : Limits) :
    (trace text source limits).2 = evaluate text source limits := rfl

theorem trace_of_ok {E : Evaluation} (h : evaluate text source limits = (.ok E, source')) :
    (trace text source limits).1 =
      opening text limits ++ E.log.map .rolled ++ [.evaluated E.total E.log.length] := by
  obtain ⟨-, he, hs⟩ := Reading.evaluate_eq_ok.1 h
  have heval := he.eval { source } hs
  simp only [trace, Session.observe_start, heval]
  rfl

theorem trace_of_error {count : UInt64} {sides : Sides} {s : σ}
    (hlead : (Reading.ofText text).tree.LeadsTo limits log count sides)
    (hs : Supplies source log s)
    (hr : Source.rollMany count.toNat sides s = (.error fault, source')) :
    (trace text source limits).1 = opening text limits ++ log.map .rolled := by
  have heval := hlead.eval { source } hs hr
  simp only [trace, Session.observe_start, heval, Except.map, List.append_nil]
  rfl

end Runs

/-- An evaluation shows how the text was read, then each completed roll in the order of
evaluation, and then the total if and only if it succeeds. If it succeeds the rolls shown
are those of its log. If a script fails, they are not all the rolls of any evaluation that
succeeds on a script starting with the faces accepted, but they are its first ones; and
there is such an evaluation. -/
theorem trace_events :
    (∀ {σ : Type} [Source σ] (text : String) (source : σ) (limits : Limits),
      let tokens := Token.tokenize text
      let tree := Expr.ofTokens tokens
      let result := evaluate text source limits
      let shown := (trace text source limits).1.map Event.entry
      let began : Event.Entry :=
        { origin := .span "evaluate_dice_with"
          level := .debug
          fields := [("expression", text),
            ("limits", "Limits \x7b max_count: " ++ toString limits.maxCount.toNat ++
              ", max_sides: " ++ toString limits.maxSides.toNat ++ " \x7d")] }
      let parsed : Event.Entry :=
        { origin := .target "dice_eval"
          level := .debug
          fields := [("message", "parsed"), ("math", Token.normalize tokens),
            ("tree", tree.text)] }
      let rolled (record : RollRecord) : Event.Entry :=
        { origin := .target "dice_eval::roll::ctx"
          level := .trace
          fields := [("message", "rolled dice"), ("roll", record.text)] }
      let evaluated (E : Evaluation) : Event.Entry :=
        { origin := .target "dice_eval"
          level := .debug
          fields := [("message", "evaluated"), ("total", toString E.total.toInt),
            ("rolls", toString E.log.length)] }
      (trace text source limits).2 = result ∧
      match result.1 with
      | .ok E =>
        shown = [began, parsed] ++ E.log.map rolled ++ [evaluated E] ∧
        rollTexts (trace text source limits).1 = E.logLines ∧
        E.log.length = tree.diceCount ∧ tree.Explained limits E.log E.total ∧
        Supplies source E.log result.2
      | .error fault =>
        ∃ log count sides s,
          shown = [began, parsed] ++ log.map rolled ∧
          rollTexts (trace text source limits).1 = log.map RollRecord.text ∧
          tree.LeadsTo limits log count sides ∧ Supplies source log s ∧
          Source.rollMany count.toNat sides s = (.error fault, result.2)) ∧
    ∀ {text : String} {script script' : Script} {limits : Limits} {fault : Fault},
      evaluate text script limits = (.error fault, script') →
        ∃ good, evaluate text (Script.Watched.mk script []) limits =
            (.error fault, Script.Watched.mk script' good) ∧
          (∃ (other : Script) (E : Evaluation), other.Starts good ∧
            evaluate text other limits = (.ok E, Script.once [])) ∧
          ∀ {other other' : Script} {E : Evaluation}, other.Starts good →
            evaluate text other limits = (.ok E, other') →
              rollTexts (trace text script limits).1 <+: E.logLines ∧
              rollTexts (trace text script limits).1 ≠ E.logLines := by
  constructor
  · intro σ _ text source limits tokens tree result shown began parsed rolled evaluated
    refine ⟨trace_snd text source limits, ?_⟩
    rcases h : result with ⟨fault | E, source'⟩
    · obtain ⟨log, count, sides, s, hlead, hs, hr⟩ := Reading.evaluate_eq_error.1 h
      have htrace := trace_of_error hlead hs hr
      refine ⟨log, count, sides, s, ?_, ?_, hlead, hs, hr⟩
      · simp only [shown, htrace, List.map_append, List.map_map]
        rfl
      · rw [htrace, Event.rollTexts_append, Event.rollTexts_opening, Event.rollTexts_rolled,
          List.nil_append]
    · obtain ⟨-, he, hs⟩ := Reading.evaluate_eq_ok.1 h
      have htrace := trace_of_ok h
      refine ⟨?_, ?_, he.length_eq, he, hs⟩
      · simp only [shown, htrace, List.map_append, List.map_map]
        rfl
      · rw [htrace, Event.rollTexts_append, Event.rollTexts_append, Event.rollTexts_opening,
          Event.rollTexts_rolled, Event.rollTexts_evaluated, List.append_nil, List.nil_append]
        rfl
  · intro text script script' limits fault h
    obtain ⟨log, count, sides, s, hlead, hs, hr⟩ := Reading.evaluate_eq_error.1 h
    obtain ⟨shown, hlen, hall, hwatched⟩ := Script.Watched.rollMany_of_error hr (faces log)
    have hh := hs.honest Script.honest
    have htexts : rollTexts (trace text script limits).1 = log.map RollRecord.text := by
      rw [trace_of_error hlead hs hr, Event.rollTexts_append, Event.rollTexts_opening,
        Event.rollTexts_rolled, List.nil_append]
    obtain ⟨more, E, hmore⟩ := hlead.exists_more hh hlen hall
    refine ⟨faces log ++ shown, ?_, ⟨_, E, Script.starts_once _ more, hmore⟩, ?_⟩
    · exact Reading.evaluate_eq_error.2
        ⟨log, count, sides, _, hlead, Script.Watched.supplies hs [], hwatched⟩
    · intro other other' E hstarts hok
      obtain ⟨-, he, hs'⟩ := Reading.evaluate_eq_ok.1 hok
      obtain ⟨t, ht, -⟩ := hstarts.supplies hh
      obtain ⟨rolls, later, hlog⟩ := hlead.continued ht he hs'
      have hlines : E.logLines = log.map RollRecord.text ++
          RollRecord.text ⟨count, sides, rolls⟩ :: later.map RollRecord.text := by
        rw [Evaluation.logLines, hlog, List.map_append, List.map_cons]
      rw [htexts, hlines]
      exact ⟨List.prefix_append .., fun heq => by simp at heq⟩

/-- The first die shows how many follow, the third of which shows a face it does not have. -/
theorem trace_events_misfit :
    ∃ (E : Evaluation) (script : Script),
      evaluate "(d4)d6+d8" (Script.once [3, 5, 6, 7, 2]) {} =
        (.error (.outOfRange 7 (Sides.ofNat 6 (by decide) (by decide))), Script.once [2]) ∧
      evaluate "(d4)d6+d8" (Script.Watched.mk (Script.once [3, 5, 6, 7, 2]) []) {} =
        (.error (.outOfRange 7 (Sides.ofNat 6 (by decide) (by decide))),
          Script.Watched.mk (Script.once [2]) [3, 5, 6]) ∧
      (Script.forever [3, 5, 6]).Starts [3, 5, 6] ∧
      evaluate "(d4)d6+d8" (Script.forever [3, 5, 6]) {} = (.ok E, script) ∧
      ((trace "(d4)d6+d8" (Script.once [3, 5, 6, 7, 2]) {}).1.map fun event =>
        event.entry.fields) =
        [[("expression", "(d4)d6+d8"),
            ("limits", "Limits \x7b max_count: 100, max_sides: 1000 \x7d")],
          [("message", "parsed"), ("math", "( d 4 ) d 6 + d 8"),
            ("tree", "((1d4)d6 + 1d8)")],
          [("message", "rolled dice"), ("roll", "1d4: [3]")]] ∧
      rollTexts (trace "(d4)d6+d8" (Script.once [3, 5, 6, 7, 2]) {}).1 = ["1d4: [3]"] ∧
      E.logLines = ["1d4: [3]", "3d6: [5, 6, 3]", "1d8: [5]"] ∧
      ["1d4: [3]"] <+: E.logLines ∧ ["1d4: [3]"] ≠ E.logLines := by
  have hfail : evaluate "(d4)d6+d8" (Script.once [3, 5, 6, 7, 2]) {} =
      (.error (.outOfRange 7 (Sides.ofNat 6 (by decide) (by decide))), Script.once [2]) := by
    decide +kernel
  have hwatched : evaluate "(d4)d6+d8" (Script.Watched.mk (Script.once [3, 5, 6, 7, 2]) []) {} =
      (.error (.outOfRange 7 (Sides.ofNat 6 (by decide) (by decide))),
        Script.Watched.mk (Script.once [2]) [3, 5, 6]) := by decide +kernel
  have hok : evaluate "(d4)d6+d8" (Script.forever [3, 5, 6]) {} =
      (.ok { total := 19
             log := [⟨1, Sides.ofNat 4 (by decide) (by decide), [3]⟩,
               ⟨3, Sides.ofNat 6 (by decide) (by decide), [5, 6, 3]⟩,
               ⟨1, Sides.ofNat 8 (by decide) (by decide), [5]⟩]
             math := "( d 4 ) d 6 + d 8" }, ⟨[6], [3, 5, 6]⟩) := by decide +kernel
  have hstarts : (Script.forever [3, 5, 6]).Starts [3, 5, 6] :=
    ⟨_, rfl, _, rfl, _, rfl, trivial⟩
  have htexts : rollTexts (trace "(d4)d6+d8" (Script.once [3, 5, 6, 7, 2]) {}).1 =
      ["1d4: [3]"] := by decide +kernel
  obtain ⟨good, hgood, -, hrolls⟩ := trace_events.2 hfail
  rw [hwatched] at hgood
  cases hgood
  have hmore := hrolls hstarts hok
  rw [htexts] at hmore
  exact ⟨_, _, hfail, hwatched, hstarts, hok, by decide +kernel, htexts, by decide +kernel, hmore⟩

end DiceNotation
