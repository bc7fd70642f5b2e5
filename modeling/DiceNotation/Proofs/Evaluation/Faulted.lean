import DiceNotation.Proofs.Evaluation.Explained

/-! When an evaluation fails, and where. A log leads to the roll that the expression
makes next, again without mentioning a source; an evaluation fails exactly if the source
supplies a log and then fails the roll that the log leads to. With one source there is one
log: if all rolls succeed after all, it starts with the same records and that roll. -/

namespace DiceNotation

/-- `LeadsTo limits e log count sides`: with the records of `log` for its first rolls,
the next roll of `e` is of `count` dice of `sides` sides. -/
inductive Expr.LeadsTo (limits : Limits) : Expr → List RollRecord → UInt64 → Sides → Prop
  | left {l r log count sides} (op : Operator) (hl : LeadsTo limits l log count sides) :
      LeadsTo limits (.binary op l r) log count sides
  | right {l r log log' a count sides} (op : Operator) (hl : l.Explained limits log a)
      (hr : LeadsTo limits r log' count sides) :
      LeadsTo limits (.binary op l r) (log ++ log') count sides
  | ofCount {c s log count sides} (hc : LeadsTo limits c log count sides) :
      LeadsTo limits (.dice c s) log count sides
  | ofSides {c s log log' n count sides} (hc : c.Explained limits log n)
      (hs : LeadsTo limits s log' count sides) :
      LeadsTo limits (.dice c s) (log ++ log') count sides
  | roll {c s log log' n m} (hc : c.Explained limits log n) (hs : s.Explained limits log' m) :
      LeadsTo limits (.dice c s) (log ++ log') (limits.clampCount n) (limits.clampSides m)

open Source (Supplies)

variable {σ : Type} [Source σ] {limits : Limits} {e : Expr} {log : List RollRecord}
  {count : UInt64} {sides : Sides} {fault : Fault}

/-! ### Evaluation of a tree -/

theorem Table.roll_eq_error {table table' : Table σ}
    (h : Table.roll count sides table = (.error fault, table')) :
    ∃ t, Source.rollMany count.toNat sides table.source = (.error fault, t) ∧
      table' = table.extend [] t := by
  rcases hr : Source.rollMany count.toNat sides table.source with ⟨fault' | rolls, t⟩
  · rw [Table.roll_of_error hr] at h
    cases h
    exact ⟨t, rfl, rfl⟩
  · simp only [Table.roll, hr] at h
    cases h

namespace Expr

theorem leadsTo_of_eval {table table' : Table σ}
    (h : e.eval limits table = (.error fault, table')) :
    ∃ log count sides s t, table' = table.extend log t ∧ e.LeadsTo limits log count sides ∧
      Supplies table.source log s ∧
      Source.rollMany count.toNat sides s = (.error fault, t) := by
  induction e generalizing table with
  | literal x => cases h
  | binary op l r ihl ihr =>
    rcases Draw.bind_eq_error.1 h with hl | ⟨a, mid, ha, h⟩
    · obtain ⟨log, count, sides, s, t, htable, hlead, hs, hr⟩ := ihl hl
      exact ⟨log, count, sides, s, t, htable, .left op hlead, hs, hr⟩
    · obtain ⟨log, w, rfl, hl, hsl⟩ := explained_of_eval ha
      rcases Draw.bind_eq_error.1 h with hr | ⟨b, last, hb, h⟩
      · obtain ⟨log', count, sides, s, t, rfl, hlead, hs, hr⟩ := ihr hr
        exact ⟨log ++ log', count, sides, s, t, table.extend_extend .., .right op hl hlead,
          hsl.append hs, hr⟩
      · cases h
  | dice c s ihc ihs =>
    rcases Draw.bind_eq_error.1 h with hc | ⟨n, mid, hn, h⟩
    · obtain ⟨log, count, sides, s, t, htable, hlead, hs, hr⟩ := ihc hc
      exact ⟨log, count, sides, s, t, htable, .ofCount hlead, hs, hr⟩
    · obtain ⟨log, w, rfl, hc, hsc⟩ := explained_of_eval hn
      rcases Draw.bind_eq_error.1 h with hs | ⟨m, last, hm, h⟩
      · obtain ⟨log', count, sides, s', t, rfl, hlead, hs, hr⟩ := ihs hs
        exact ⟨log ++ log', count, sides, s', t, table.extend_extend .., .ofSides hc hlead,
          hsc.append hs, hr⟩
      · obtain ⟨log', w', rfl, hs, hss⟩ := explained_of_eval hm
        obtain ⟨t, hr, rfl⟩ := Table.roll_eq_error h
        refine ⟨log ++ log', _, _, w', t, ?_, .roll hc hs, hsc.append hss, hr⟩
        rw [Table.extend_extend, Table.extend_extend, List.append_nil]

theorem LeadsTo.eval (h : e.LeadsTo limits log count sides) (table : Table σ) {t u : σ}
    (hs : Supplies table.source log t)
    (hr : Source.rollMany count.toNat sides t = (.error fault, u)) :
    e.eval limits table = (.error fault, table.extend log u) := by
  -- The supply is cut where an operand ends, since only what leads to the fault is left open.
  induction h generalizing table with
  | left op hlead ih => rw [Expr.eval, Draw.bind_of_error (ih table hs hr)]
  | @right l r log log' a count sides op hl hlead ih =>
    obtain ⟨w, hsl, hsr⟩ := hs.of_append
    rw [Expr.eval, Draw.bind_of_ok (hl.eval table hsl),
      Draw.bind_of_error (ih (table.extend log w) hsr hr), Table.extend_extend]
  | ofCount hlead ih => rw [Expr.eval, Draw.bind_of_error (ih table hs hr)]
  | @ofSides c s log log' n count sides hc hlead ih =>
    obtain ⟨w, hsc, hss⟩ := hs.of_append
    rw [Expr.eval, Draw.bind_of_ok (hc.eval table hsc),
      Draw.bind_of_error (ih (table.extend log w) hss hr), Table.extend_extend]
  | @roll c s log log' n m hc hs' =>
    obtain ⟨w, hsc, hss⟩ := hs.of_append
    have hroll : Table.roll (limits.clampCount n) (limits.clampSides m)
        ((table.extend log w).extend log' t) = _ := Table.roll_of_error hr
    rw [Expr.eval, Draw.bind_of_ok (hc.eval table hsc),
      Draw.bind_of_ok (hs'.eval (table.extend log w) hss), hroll, Table.extend_extend,
      Table.extend_extend, List.append_nil]

/-- The roll that an expression makes next is within the limits. -/
theorem LeadsTo.within (h : e.LeadsTo limits log count sides) :
    count.toNat ≤ limits.maxCount.toNat ∧ sides.toNat ≤ limits.maxSides.toNat := by
  induction h with
  | left op hlead ih | right op hl hlead ih | ofCount hlead ih | ofSides hc hlead ih => exact ih
  | roll hc hs => exact ⟨limits.clampCount_le _, limits.clampSides_le _⟩

/-! ### One source, one log -/

variable {s t t' : σ} {log' : List RollRecord} {v v' : Int64}

/-- Two accounts of an expression that agree with one source are the same. -/
theorem Explained.unique (h : e.Explained limits log v) (hs : Supplies s log t)
    (h' : e.Explained limits log' v') (hs' : Supplies s log' t') :
    log' = log ∧ v' = v ∧ t' = t := by
  have heval := h'.eval { source := s } hs'
  rw [h.eval { source := s } hs] at heval
  cases heval
  exact ⟨rfl, rfl, rfl⟩

/-- Where a log leads to a roll, an account of the whole goes on with that roll. -/
theorem LeadsTo.continued (h : e.LeadsTo limits log count sides) (hs : Supplies s log t)
    (h' : e.Explained limits log' v') (hs' : Supplies s log' t') :
    ∃ rolls later, log' = log ++ ⟨count, sides, rolls⟩ :: later := by
  -- Operands that were completed have the same records in both, by `unique`; the account
  -- of the operand with the pending roll is continued by the records after it.
  induction h generalizing s log' v' t' with
  | left op hlead ih =>
    cases h' with
    | binary _ hl hr =>
      obtain ⟨u, hsl, -⟩ := hs'.of_append
      obtain ⟨rolls, later, rfl⟩ := ih hs hl hsl
      exact ⟨rolls, later ++ _, List.append_assoc ..⟩
  | right op hl hlead ih =>
    cases h' with
    | binary _ hl' hr =>
      obtain ⟨u, hsl, hsr⟩ := hs.of_append
      obtain ⟨u', hsl', hsr'⟩ := hs'.of_append
      obtain ⟨rfl, -, rfl⟩ := hl.unique hsl hl' hsl'
      obtain ⟨rolls, later, rfl⟩ := ih hsr hr hsr'
      exact ⟨rolls, later, (List.append_assoc ..).symm⟩
  | ofCount hlead ih =>
    cases h' with
    | dice hc hsides _ _ =>
      obtain ⟨u, hsc, -⟩ := hs'.of_append
      obtain ⟨rolls, later, rfl⟩ := ih hs hc hsc
      exact ⟨rolls, later ++ _, List.append_assoc ..⟩
  | ofSides hc hlead ih =>
    cases h' with
    | dice hc' hsides _ _ =>
      obtain ⟨u, hsc, hss⟩ := hs.of_append
      obtain ⟨u', hsc', hrest⟩ := hs'.of_append
      obtain ⟨w, hss', -⟩ := hrest.of_append
      obtain ⟨rfl, -, rfl⟩ := hc.unique hsc hc' hsc'
      obtain ⟨rolls, later, rfl⟩ := ih hss hsides hss'
      exact ⟨rolls, later ++ _, by rw [List.append_assoc, List.append_assoc, List.cons_append]⟩
  | roll hc hsides =>
    cases h' with
    | dice hc' hsides' hrecord hrecord' =>
      obtain ⟨u, hsc, hss⟩ := hs.of_append
      obtain ⟨u', hsc', hrest⟩ := hs'.of_append
      obtain ⟨w, hss', -⟩ := hrest.of_append
      obtain ⟨rfl, rfl, rfl⟩ := hc.unique hsc hc' hsc'
      obtain ⟨rfl, rfl, rfl⟩ := hsides.unique hss hsides' hss'
      rw [← hrecord, ← hrecord']
      exact ⟨_, [], (List.append_assoc ..).symm⟩

end Expr

/-! ### Evaluation of a reading -/

/-- An evaluation fails exactly if the source supplies a log and fails the next roll. -/
theorem Reading.evaluate_eq_error {reading : Reading} {source source' : σ} :
    reading.evaluate source limits = (.error fault, source') ↔
      ∃ log count sides s, reading.tree.LeadsTo limits log count sides ∧
        Supplies source log s ∧
        Source.rollMany count.toNat sides s = (.error fault, source') := by
  constructor
  · intro h
    rcases hv : reading.tree.eval limits { source } with ⟨fault' | v, table⟩
    · rw [evaluate_of_eval hv] at h
      obtain ⟨log, count, sides, s, t, rfl, hlead, hs, hr⟩ := Expr.leadsTo_of_eval hv
      cases h
      exact ⟨log, count, sides, s, hlead, hs, hr⟩
    · rw [evaluate_of_eval hv] at h
      cases h
  · rintro ⟨log, count, sides, s, hlead, hs, hr⟩
    rw [evaluate_of_eval (hlead.eval { source } hs hr)]
    rfl

/-- Whether an evaluation succeeds or not, the source has gone on by the rolls that were
completed, and by what it gave for the one that was not. -/
theorem Reading.evaluate_source (reading : Reading) (source : σ) (limits : Limits) :
    let result := reading.evaluate source limits
    match result.1 with
    | .ok E => E.math = reading.math ∧ reading.tree.Explained limits E.log E.total ∧
      Supplies source E.log result.2
    | .error fault => ∃ log count sides s, reading.tree.LeadsTo limits log count sides ∧
      Supplies source log s ∧ Source.rollMany count.toNat sides s = (.error fault, result.2) := by
  rcases h : reading.evaluate source limits with ⟨fault | E, source'⟩
  · exact evaluate_eq_error.1 h
  · exact evaluate_eq_ok.1 h

end DiceNotation
