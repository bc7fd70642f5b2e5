import DiceNotation.Proofs.Evaluation.Certain
import DiceNotation.Proofs.Prompt.Lines
import DiceNotation.Proofs.Session.Reuse

/-! A dialogue line by line. The lines that can be read are evaluated in one session, each
is answered and followed by a sign, and the first line that cannot be read ends the
dialogue. Two inputs in a row, the first of which ends in a newline, are two dialogues in a
row, without the farewell between them. -/

namespace DiceNotation.Prompt

variable {σ : Type} [Source σ]

/-! ### Answers -/

/-- The answers to outcomes, a sign after each, and what follows. -/
def Transcript.ofOutcomes (outcomes : List (Except Fault Evaluation)) (rest : Transcript) :
    Transcript := outcomes.foldr (fun outcome rest => (ofOutcome outcome).followedBy rest) rest

/-- What is written for evaluations that succeed. -/
def replies (evaluations : List Evaluation) : String :=
  String.join (evaluations.map fun E => E.text ++ "\n" ++ sign)

theorem Transcript.ofOutcomes_ok (evaluations : List Evaluation) (rest : Transcript) :
    ofOutcomes (evaluations.map .ok) rest =
      { rest with output := replies evaluations ++ rest.output } := by
  induction evaluations with
  | nil => simp [ofOutcomes, replies]
  | cons E evaluations ih =>
    change (ofOutcome (.ok E)).followedBy (ofOutcomes (evaluations.map .ok) rest) = _
    rw [ih]
    simp [replies, followedBy, ofOutcome, String.join_cons, String.append_assoc]

/-! ### The course of a dialogue -/

/-- What is read from the lines that can be read. -/
def readings (lines : List (List UInt8)) : List Reading :=
  lines.filterMap fun line => (decode? line).map Reading.ofText

theorem respond_of_text (source : σ) {line : List UInt8} {text : String}
    (h : decode? line = some text) :
    respond source (some line) =
      (.ofOutcome (evaluate text source {}).1, some (evaluate text source {}).2) := by
  rw [respond, h]
  rfl

theorem respond_undecodable (source : σ) {line : List UInt8} (h : decode? line = none) :
    respond source (some line) = (.undecodable, none) := by
  rw [respond, h]

theorem converse_cons (source : σ) {line : List UInt8} {text : String}
    (h : decode? line = some text) (rest : List (List UInt8)) :
    converse source (line :: rest) =
      (Transcript.ofOutcome (evaluate text source {}).1).followedBy
        (converse (evaluate text source {}).2 rest) := by
  rw [converse, respond_of_text source h]

theorem converse_undecodable (source : σ) {line : List UInt8} (h : decode? line = none)
    (rest : List (List UInt8)) : converse source (line :: rest) = .undecodable := by
  rw [converse, respond_undecodable source h]

/-- The dialogue after lines that can be read goes on where their session ends. -/
theorem converse_append {good : List (List UInt8)} (h : ∀ line ∈ good, (decode? line).isSome)
    (source : σ) (rest : List (List UInt8)) :
    converse source (good ++ rest) =
      .ofOutcomes ((Session.start {} source).outcomes (readings good))
        (converse ((Session.start {} source).after (readings good)).source rest) := by
  induction good generalizing source with
  | nil => rfl
  | cons line good ih =>
    obtain ⟨hline, hgood⟩ := List.forall_mem_cons.1 h
    obtain ⟨text, htext⟩ := Option.isSome_iff_exists.1 hline
    have hreadings : readings (line :: good) = Reading.ofText text :: readings good :=
      List.filterMap_cons_some (by rw [htext]; rfl)
    rw [List.cons_append, converse_cons source htext, ih hgood, hreadings]
    rfl

/-- Only the tokens of a line matter. -/
theorem converse_congr (source : σ) {ls ls' : List (List UInt8)}
    (h : ls.map tokens? = ls'.map tokens?) : converse source ls = converse source ls' := by
  induction ls generalizing source ls' with
  | nil => rw [List.map_eq_nil_iff.1 h.symm]
  | cons line ls ih =>
    cases ls' with
    | nil => cases h
    | cons line' ls' =>
      obtain ⟨hline, hls⟩ := List.cons.inj h
      cases hd : decode? line with
      | none =>
        have hd' : decode? line' = none := by
          rw [tokens?, tokens?, hd] at hline
          exact Option.map_eq_none_iff.1 hline.symm
        rw [converse_undecodable source hd, converse_undecodable source hd']
      | some text =>
        rw [tokens?, tokens?, hd] at hline
        obtain ⟨text', hd', htokens⟩ := Option.map_eq_some_iff.1 hline.symm
        have heval : evaluate text' source {} = evaluate text source {} :=
          congrArg (fun ts => (Reading.ofTokens ts).evaluate source {}) htokens
        rw [converse_cons source hd, converse_cons source hd', heval, ih _ hls]

/-- Where no die can fall in two ways, the source does not matter. -/
theorem converse_of_certain (honest : Source.Honest σ) (unfailing : Source.Unfailing σ)
    {ls : List (List UInt8)} (h : ∀ line ∈ ls, ∀ text ∈ decode? line,
      (Reading.ofText text).tree.Certain {}) (source source' : σ) :
    converse source ls = converse source' ls := by
  induction ls generalizing source source' with
  | nil => rfl
  | cons line ls ih =>
    obtain ⟨hline, hls⟩ := List.forall_mem_cons.1 h
    cases hd : decode? line with
    | none => rw [converse_undecodable source hd, converse_undecodable source' hd]
    | some text =>
      obtain ⟨E, hE⟩ := (hline text hd).exists_outcome honest unfailing
      obtain ⟨t, ht⟩ := hE source
      obtain ⟨t', ht'⟩ := hE source'
      change evaluate text source {} = _ at ht
      change evaluate text source' {} = _ at ht'
      rw [converse_cons source hd, converse_cons source' hd, ht, ht', ih hls t t']

/-! ### Sources that never fail -/

theorem exists_evaluations (unfailing : Source.Unfailing σ) (session : Session σ)
    (readings : List Reading) :
    ∃ evaluations : List Evaluation, session.outcomes readings = evaluations.map .ok := by
  induction readings generalizing session with
  | nil => exact ⟨[], rfl⟩
  | cons reading readings ih =>
    obtain ⟨E, source, hE⟩ := unfailing.evaluate reading session.source session.limits
    obtain ⟨evaluations, hrest⟩ := ih (session.evaluate reading).2
    refine ⟨E :: evaluations, ?_⟩
    rw [Session.outcomes_cons, hrest, Session.evaluate_eq, hE]
    rfl

/-- On a source that never fails, lines that can be read add their replies and nothing else. -/
theorem converse_append_of_unfailing (unfailing : Source.Unfailing σ)
    {good : List (List UInt8)} (h : ∀ line ∈ good, (decode? line).isSome) (source : σ) :
    ∃ (evaluations : List Evaluation) (source' : σ),
      (Session.start {} source).outcomes (readings good) = evaluations.map .ok ∧
      ∀ rest, converse source (good ++ rest) =
        { converse source' rest with
          output := replies evaluations ++ (converse source' rest).output } := by
  obtain ⟨evaluations, houtcomes⟩ :=
    exists_evaluations unfailing (Session.start {} source) (readings good)
  refine ⟨evaluations, ((Session.start {} source).after (readings good)).source, houtcomes,
    fun rest => ?_⟩
  rw [converse_append h, houtcomes, Transcript.ofOutcomes_ok]

/-- The first line that cannot be read. -/
theorem exists_bad {ls : List (List UInt8)} (h : ¬∀ line ∈ ls, (decode? line).isSome) :
    ∃ good bad rest, ls = good ++ bad :: rest ∧ (∀ line ∈ good, (decode? line).isSome) ∧
      decode? bad = none := by
  obtain ⟨line, hmem, hline⟩ : ∃ line ∈ ls, (decode? line).isNone := by simpa using h
  have hfind : (ls.find? fun line => (decode? line).isNone).isSome :=
    List.find?_isSome.2 ⟨line, hmem, hline⟩
  obtain ⟨bad, hbad⟩ := Option.isSome_iff_exists.1 hfind
  obtain ⟨hnone, good, rest, hls, hgood⟩ := List.find?_eq_some_iff_append.1 hbad
  exact ⟨good, bad, rest, hls, by simpa [Option.isSome_iff_ne_none] using hgood,
    Option.isNone_iff_eq_none.1 hnone⟩

theorem transcript_of_readable (unfailing : Source.Unfailing σ) (source : σ)
    {input : List UInt8} (h : ∀ line ∈ lines input, (decode? line).isSome) :
    ∃ evaluations : List Evaluation,
      (Session.start {} source).outcomes (readings (lines input)) = evaluations.map .ok ∧
      transcript source input = { output := sign ++ (replies evaluations ++ "\n") } := by
  obtain ⟨evaluations, source', houtcomes, hrest⟩ :=
    converse_append_of_unfailing unfailing h source
  have hall := hrest []
  rw [List.append_nil] at hall
  refine ⟨evaluations, houtcomes, ?_⟩
  rw [transcript, hall]
  rfl

theorem transcript_of_unreadable (unfailing : Source.Unfailing σ) (source : σ)
    {input : List UInt8} {good rest : List (List UInt8)} {bad : List UInt8}
    (hinput : lines input = good ++ bad :: rest) (hgood : ∀ line ∈ good, (decode? line).isSome)
    (hbad : decode? bad = none) :
    ∃ evaluations : List Evaluation,
      (Session.start {} source).outcomes (readings good) = evaluations.map .ok ∧
      transcript source input =
        { Transcript.undecodable with output := sign ++ replies evaluations } := by
  obtain ⟨evaluations, source', houtcomes, hrest⟩ :=
    converse_append_of_unfailing unfailing hgood source
  refine ⟨evaluations, houtcomes, ?_⟩
  rw [transcript, hinput, hrest, converse_undecodable source' hbad]
  change { Transcript.undecodable with output := sign ++ (replies evaluations ++ "") } = _
  rw [String.append_empty]

/-! ### Line by line -/

/-- A dialogue on two inputs in a row, the first of which ends in a newline and can be read,
writes what it writes on the first, without the farewell, and then what it writes on the
second, without the sign in front; its errors and its exit code are those on the second. As
long as no die can fall in two ways, the three may start from any states of an honest source
that never fails. One more carriage return in front of a newline changes nothing. A dialogue
ends well exactly if every line can be read, with the replies to all lines, a sign after
each, and the farewell; if not, it writes the replies to the lines before the first that
cannot be read, a sign after each, and nothing else. -/
theorem transcript_line_by_line :
    (Source.Honest Words ∧ Source.Unfailing Words) ∧
    (∀ {σ : Type} [Source σ], Source.Honest σ → Source.Unfailing σ →
      ∀ {a b : List UInt8}, (a = [] ∨ a.getLast? = some newline) →
        (∀ line ∈ lines a, (decode? line).isSome) →
        (∀ line ∈ lines a ++ lines b, ∀ text ∈ decode? line,
          (Reading.ofText text).tree.Certain {}) →
        ∀ s s₁ s₂ : σ, ∃ front back,
          (transcript s₁ a).output = front ++ "\n" ∧
          (transcript s₂ b).output = sign ++ back ∧
          transcript s (a ++ b) = { transcript s₂ b with output := front ++ back }) ∧
    (∀ {σ : Type} [Source σ] (s : σ) (before rest : List UInt8),
      transcript s (before ++ carriageReturn :: newline :: rest) =
        transcript s (before ++ newline :: rest)) ∧
    ∀ {σ : Type} [Source σ], Source.Unfailing σ → ∀ (s : σ) (input : List UInt8),
      ((transcript s input).code = 0 ∧ (transcript s input).errors = "" ↔
        ∀ line ∈ lines input, (decode? line).isSome) ∧
      ((∀ line ∈ lines input, (decode? line).isSome) → ∃ evaluations : List Evaluation,
        ((Session.start {} s).evaluateAll (readings (lines input))).1 = evaluations.map .ok ∧
        (transcript s input).output = sign ++ (replies evaluations ++ "\n")) ∧
      ((¬∀ line ∈ lines input, (decode? line).isSome) →
        ∃ (good : List (List UInt8)) (bad : List UInt8) (rest : List (List UInt8))
            (evaluations : List Evaluation),
          lines input = good ++ bad :: rest ∧ (∀ line ∈ good, (decode? line).isSome) ∧
          decode? bad = none ∧
          ((Session.start {} s).evaluateAll (readings good)).1 = evaluations.map .ok ∧
          (transcript s input).output = sign ++ replies evaluations ∧
          (transcript s input).code = 1) := by
  refine ⟨⟨Words.honest, Words.unfailing⟩, ?_, ?_, ?_⟩
  · intro σ _ honest unfailing a b hend hreadable hcertain s s₁ s₂
    obtain ⟨hcertain₁, hcertain₂⟩ := List.forall_mem_append.1 hcertain
    obtain ⟨evaluations, t, -, hrest⟩ := converse_append_of_unfailing unfailing hreadable s
    -- The first dialogue is one from `s` that ends, the second one from where `s` has come to.
    have hfirst : converse s₁ (lines a) = converse s (lines a ++ []) := by
      rw [List.append_nil, converse_of_certain honest unfailing hcertain₁ s₁ s]
    have hsecond : converse s₂ (lines b) = converse t (lines b) :=
      converse_of_certain honest unfailing hcertain₂ s₂ t
    refine ⟨sign ++ replies evaluations, (converse s₂ (lines b)).output, ?_, rfl, ?_⟩
    · rw [transcript, hfirst, hrest, String.append_assoc]
      rfl
    · rw [transcript, lines_append hend, hrest, ← hsecond, String.append_assoc]
      rfl
  · intro σ _ s before rest
    rw [transcript, transcript, converse_congr s (tokens?_lines_return before rest)]
  · intro σ _ unfailing s input
    by_cases h : ∀ line ∈ lines input, (decode? line).isSome
    · obtain ⟨evaluations, houtcomes, htranscript⟩ := transcript_of_readable unfailing s h
      rw [htranscript]
      exact ⟨⟨fun _ => h, fun _ => ⟨rfl, rfl⟩⟩, fun _ => ⟨evaluations, houtcomes, rfl⟩,
        fun hbad => absurd h hbad⟩
    · obtain ⟨good, bad, rest, hinput, hgood, hbad⟩ := exists_bad h
      obtain ⟨evaluations, houtcomes, htranscript⟩ :=
        transcript_of_unreadable unfailing s hinput hgood hbad
      have hcode : Transcript.undecodable.code ≠ 0 := by decide
      rw [htranscript]
      refine ⟨⟨fun hend => absurd hend.1 hcode, fun hall => absurd hall h⟩,
        fun hall => absurd hall h, fun _ => ?_⟩
      exact ⟨good, bad, rest, evaluations, hinput, hgood, hbad, houtcomes, rfl, rfl⟩

/-- The line `2d1` first, and then the line `0d6` and a byte that is no text. -/
theorem transcript_line_by_line_bad_byte :
    let a : List UInt8 := [50, 100, 49, newline]
    let b : List UInt8 := [48, 100, 54, carriageReturn, newline, 255]
    Source.Honest Words ∧ Source.Unfailing Words ∧ a.getLast? = some newline ∧
    lines a = [[50, 100, 49]] ∧ lines b = [[48, 100, 54], [255]] ∧
    decode? [50, 100, 49] = some "2d1" ∧ decode? [48, 100, 54] = some "0d6" ∧
    decode? [255] = none ∧
    (Reading.ofText "2d1").tree.Certain {} ∧ (Reading.ofText "0d6").tree.Certain {} ∧
    (∃ front back,
      (transcript (Words.mk [1]) a).output = front ++ "\n" ∧
      (transcript (Words.mk [2]) b).output = sign ++ back ∧
      transcript (Words.mk []) (a ++ b) =
        { transcript (Words.mk [2]) b with output := front ++ back }) ∧
    (transcript (Words.mk [1]) a).output = "> 2 d 1 = 2\n  2d1: [1, 1]\n> \n" ∧
    (transcript (Words.mk []) (a ++ b)).output =
      "> 2 d 1 = 2\n  2d1: [1, 1]\n> 0 d 6 = 0\n  0d6: []\n> " ∧
    ∃ (good : List (List UInt8)) (bad : List UInt8) (rest : List (List UInt8))
        (evaluations : List Evaluation),
      lines (a ++ b) = good ++ bad :: rest ∧ decode? bad = none ∧
      (transcript (Words.mk []) (a ++ b)).output = sign ++ replies evaluations ∧
      (transcript (Words.mk []) (a ++ b)).code = 1 := by
  intro a b
  have hend : a.getLast? = some newline := rfl
  have hlines : lines a = [[50, 100, 49]] := by decide +kernel
  have hlines' : lines b = [[48, 100, 54], [255]] := by decide +kernel
  have hdecode : decode? [50, 100, 49] = some "2d1" := by decide +kernel
  have hdecode' : decode? [48, 100, 54] = some "0d6" := by decide +kernel
  have hbad : decode? [255] = none := by decide +kernel
  have htree : (Reading.ofText "2d1").tree = .dice (.literal 2) (.literal 1) := by
    decide +kernel
  have htree' : (Reading.ofText "0d6").tree = .dice (.literal 0) (.literal 6) := by
    decide +kernel
  have hcertain : (Reading.ofText "2d1").tree.Certain {} := by
    have he : (Expr.dice (.literal 2) (.literal 1)).Explained {}
        [⟨2, Sides.ofNat 1 (by decide) (by decide), [1, 1]⟩] 2 :=
      .dice (.literal 2) (.literal 1) rfl rfl
    rw [htree]
    exact he.certain (List.forall_mem_singleton.2 (.inr rfl))
      (List.forall_mem_singleton.2 ⟨rfl, List.forall_mem_cons.2
        ⟨Sides.shows_one _, List.forall_mem_singleton.2 (Sides.shows_one _)⟩⟩)
  have hcertain' : (Reading.ofText "0d6").tree.Certain {} := by
    have he : (Expr.dice (.literal 0) (.literal 6)).Explained {}
        [⟨0, Sides.ofNat 6 (by decide) (by decide), []⟩] 0 :=
      .dice (.literal 0) (.literal 6) rfl rfl
    rw [htree']
    exact he.certain (List.forall_mem_singleton.2 (.inl rfl))
      (List.forall_mem_singleton.2 ⟨rfl, List.forall_mem_nil _⟩)
  have hreadable : ∀ line ∈ lines a, (decode? line).isSome := by
    rw [hlines]
    exact List.forall_mem_singleton.2 (by rw [hdecode]; rfl)
  have hall : ∀ line ∈ lines a ++ lines b, ∀ text ∈ decode? line,
      (Reading.ofText text).tree.Certain {} := by
    rw [hlines, hlines']
    intro line hline text htext
    simp only [List.mem_append, List.mem_cons, List.not_mem_nil, or_false] at hline
    rcases hline with rfl | rfl | rfl
    · cases hdecode.symm.trans htext
      exact hcertain
    · cases hdecode'.symm.trans htext
      exact hcertain'
    · cases hbad.symm.trans htext
  have hunreadable : ¬∀ line ∈ lines (a ++ b), (decode? line).isSome := by
    intro h
    have hlast := h [255] (by decide +kernel)
    rw [hbad] at hlast
    cases hlast
  obtain ⟨good, bad, rest, evaluations, hgood, -, hnone, -, houtput, hcode⟩ :=
    (transcript_line_by_line.2.2.2 Words.unfailing (Words.mk []) (a ++ b)).2.2 hunreadable
  exact ⟨Words.honest, Words.unfailing, hend, hlines, hlines', hdecode, hdecode', hbad,
    hcertain, hcertain',
    transcript_line_by_line.2.1 Words.honest Words.unfailing (.inr hend) hreadable hall _ _ _,
    by decide +kernel, by decide +kernel, good, bad, rest, evaluations, hgood, hnone, houtput,
    hcode⟩

end DiceNotation.Prompt
