import DiceNotation.Session

/-! When an evaluation succeeds, and with what. The log explains the total of the
expression without mentioning a source, and the source supplies the log without
mentioning the expression; an evaluation succeeds exactly if both hold. -/

namespace DiceNotation

/-! ### Rolls on a table -/

namespace Table

variable {σ : Type}

/-- The table once the rolls of `log` are made, each of which an observer has seen. -/
def extend (table : Table σ) (log : List RollRecord) (source : σ) : Table σ :=
  { source, log := table.log ++ log, events := table.events ++ log.map .rolled }

theorem extend_nil (table : Table σ) : table.extend [] table.source = table := by
  simp only [extend, List.map_nil, List.append_nil]

theorem extend_extend (table : Table σ) (log log' : List RollRecord) (s t : σ) :
    (table.extend log s).extend log' t = table.extend (log ++ log') t := by
  simp only [extend, List.map_append, List.append_assoc]

end Table

/-! ### The two halves of an evaluation -/

/-- `Explained limits e log total`: with the records of `log` for its dice, in the
order of evaluation, `e` comes to `total`. -/
inductive Expr.Explained (limits : Limits) : Expr → List RollRecord → Int64 → Prop
  | literal (x : Int64) : Explained limits (.literal x) [] x
  | binary {l r log log' a b} (op : Operator) (hl : Explained limits l log a)
      (hr : Explained limits r log' b) :
      Explained limits (.binary op l r) (log ++ log') (op.apply a b)
  | dice {c s log log' n m} {record : RollRecord} (hc : Explained limits c log n)
      (hs : Explained limits s log' m) (hcount : record.count = limits.clampCount n)
      (hsides : record.sides = limits.clampSides m) :
      Explained limits (.dice c s) (log ++ (log' ++ [record])) record.total

/-- `Supplies source log source'`: asked for the batches of `log` one after the other,
`source` gives the faces recorded, and ends as `source'`. -/
inductive Source.Supplies {σ : Type} [Source σ] : σ → List RollRecord → σ → Prop
  | nil (s : σ) : Supplies s [] s
  | cons {s t u : σ} {record : RollRecord} {log : List RollRecord}
      (h : Source.rollMany record.count.toNat record.sides s = (.ok record.rolls, t))
      (hlog : Supplies t log u) : Supplies s (record :: log) u

variable {σ : Type} [Source σ] {limits : Limits}

namespace Source.Supplies

variable {s t u : σ} {log log' : List RollRecord}

theorem append (h : Supplies s log t) (h' : Supplies t log' u) : Supplies s (log ++ log') u := by
  induction h with
  | nil s => exact h'
  | cons hr hlog ih => exact cons hr (ih h')

theorem of_append (h : Supplies s (log ++ log') u) : ∃ t, Supplies s log t ∧ Supplies t log' u := by
  induction log generalizing s with
  | nil => exact ⟨s, nil s, h⟩
  | cons record log ih =>
    cases h with
    | cons hr hlog =>
      obtain ⟨t, ht, hu⟩ := ih hlog
      exact ⟨t, cons hr ht, hu⟩

theorem singleton {record : RollRecord}
    (h : Source.rollMany record.count.toNat record.sides s = (.ok record.rolls, t)) :
    Supplies s [record] t := cons h (nil t)

theorem of_singleton {record : RollRecord} (h : Supplies s [record] t) :
    Source.rollMany record.count.toNat record.sides s = (.ok record.rolls, t) := by
  cases h with
  | cons hr hlog =>
    cases hlog
    exact hr

end Source.Supplies

open Source (Supplies)

/-! ### Evaluation of a tree -/

namespace Table

variable {table table' : Table σ} {count : UInt64} {sides : Sides} {t : σ}

theorem roll_of_rollMany {record : RollRecord}
    (h : Source.rollMany record.count.toNat record.sides table.source =
      (.ok record.rolls, t)) :
    Table.roll record.count record.sides table = (.ok record.total, table.extend [record] t) := by
  simp only [Table.roll, h]
  rfl

theorem roll_of_error {fault : Fault}
    (h : Source.rollMany count.toNat sides table.source = (.error fault, t)) :
    Table.roll count sides table = (.error fault, table.extend [] t) := by
  simp only [Table.roll, h, extend, List.map_nil, List.append_nil]

theorem roll_eq_ok {v : Int64} (h : Table.roll count sides table = (.ok v, table')) :
    ∃ (record : RollRecord) (t : σ), record.count = count ∧ record.sides = sides ∧
      record.total = v ∧
      Source.rollMany count.toNat sides table.source = (.ok record.rolls, t) ∧
      table' = table.extend [record] t := by
  unfold Table.roll at h
  split at h
  · next rolls t hr =>
    cases h
    exact ⟨⟨count, sides, rolls⟩, t, rfl, rfl, rfl, hr, rfl⟩
  · cases h

end Table

namespace Expr

theorem explained_of_eval {e : Expr} {table table' : Table σ} {v : Int64}
    (h : e.eval limits table = (.ok v, table')) :
    ∃ log t, table' = table.extend log t ∧ e.Explained limits log v ∧
      Supplies table.source log t := by
  induction e generalizing table table' v with
  | literal x =>
    cases h
    exact ⟨[], table.source, table.extend_nil.symm, .literal x, .nil _⟩
  | binary op l r ihl ihr =>
    obtain ⟨a, mid, ha, h⟩ := Draw.bind_eq_ok.1 h
    obtain ⟨b, last, hb, h⟩ := Draw.bind_eq_ok.1 h
    cases h
    obtain ⟨log, t, rfl, hl, hsl⟩ := ihl ha
    obtain ⟨log', u, rfl, hr, hsr⟩ := ihr hb
    exact ⟨log ++ log', u, table.extend_extend .., .binary op hl hr, hsl.append hsr⟩
  | dice c s ihc ihs =>
    obtain ⟨n, mid, hn, h⟩ := Draw.bind_eq_ok.1 h
    obtain ⟨m, last, hm, h⟩ := Draw.bind_eq_ok.1 h
    obtain ⟨record, w, hcount, hsides, rfl, hr, rfl⟩ := Table.roll_eq_ok h
    obtain ⟨log, t, rfl, hc, hsc⟩ := ihc hn
    obtain ⟨log', u, rfl, hs, hss⟩ := ihs hm
    rw [← hcount, ← hsides] at hr
    refine ⟨log ++ (log' ++ [record]), w, ?_, .dice hc hs hcount hsides,
      hsc.append (hss.append (.singleton hr))⟩
    rw [Table.extend_extend, Table.extend_extend]

theorem Explained.eval {e : Expr} {log : List RollRecord} {v : Int64}
    (h : e.Explained limits log v) (table : Table σ) {t : σ}
    (hs : Supplies table.source log t) :
    e.eval limits table = (.ok v, table.extend log t) := by
  induction h generalizing table t with
  | literal x =>
    cases hs
    rw [Table.extend_nil]
    rfl
  | @binary l r log log' a b op hl hr ihl ihr =>
    obtain ⟨u, hsl, hsr⟩ := hs.of_append
    rw [Expr.eval, Draw.bind_of_ok (ihl table hsl),
      Draw.bind_of_ok (ihr (table.extend log u) hsr), Draw.pure_apply, Table.extend_extend]
  | @dice c s log log' n m record hc hs' hcount hsides ihc ihs =>
    obtain ⟨u, hsc, hrest⟩ := hs.of_append
    obtain ⟨w, hss, hroll⟩ := hrest.of_append
    have hlast : Table.roll record.count record.sides ((table.extend log u).extend log' w) = _ :=
      Table.roll_of_rollMany hroll.of_singleton
    rw [Expr.eval, Draw.bind_of_ok (ihc table hsc),
      Draw.bind_of_ok (ihs (table.extend log u) hss), ← hcount, ← hsides, hlast,
      Table.extend_extend, Table.extend_extend]

end Expr

/-! ### Evaluation of a reading -/

theorem Session.observe_start (reading : Reading) (source : σ) :
    (Session.start limits source).observe reading =
      let (result, table) := reading.tree.eval limits { source }
      (table.events, result.map fun total => { total, log := table.log, math := reading.math },
        Session.start limits table.source) := rfl

theorem Reading.evaluate_of_eval {reading : Reading} {source : σ} {result : Except Fault Int64}
    {table : Table σ} (h : reading.tree.eval limits { source } = (result, table)) :
    reading.evaluate source limits =
      (result.map fun total => { total, log := table.log, math := reading.math },
        table.source) := by
  unfold Reading.evaluate Session.evaluate
  rw [Session.observe_start, h]
  rfl

/-- An evaluation succeeds exactly if the source supplies a log that explains the total. -/
theorem Reading.evaluate_eq_ok {reading : Reading} {source source' : σ} {E : Evaluation} :
    reading.evaluate source limits = (.ok E, source') ↔
      E.math = reading.math ∧ reading.tree.Explained limits E.log E.total ∧
        Supplies source E.log source' := by
  constructor
  · intro h
    rcases hv : reading.tree.eval limits { source } with ⟨fault | v, table⟩
    · rw [evaluate_of_eval hv] at h
      cases h
    · rw [evaluate_of_eval hv] at h
      obtain ⟨log, t, rfl, he, hs⟩ := Expr.explained_of_eval hv
      cases h
      exact ⟨rfl, he, hs⟩
  · rintro ⟨hmath, he, hs⟩
    rw [evaluate_of_eval (he.eval { source } hs), ← hmath]
    rfl

end DiceNotation
