import DiceNotation.Dice.Script
import DiceNotation.Proofs.Evaluation.Explained
import DiceNotation.Proofs.Source.Monitored
import Mathlib.Data.List.Forall2

/-! The log against the tree. The rolls of a tree are counted in post-order: those of
the first operand, those of the second, then the node itself. In that order the log has
one record for each, whose total stands in for the roll in every operand further up. -/

namespace DiceNotation

namespace Expr

/-! ### Totals in place of rolls -/

/-- The value of a tree without rolls. -/
def value? : Expr → Option Int64
  | literal x => some x
  | binary op l r => do return op.apply (← l.value?) (← r.value?)
  | dice _ _ => none

theorem value?_binary_eq_some {op : Operator} {l r : Expr} {v : Int64} :
    (binary op l r).value? = some v ↔
      ∃ a b, l.value? = some a ∧ r.value? = some b ∧ op.apply a b = v := by
  simp [value?, Option.bind_eq_some_iff]

def diceCount : Expr → Nat
  | literal _ => 0
  | binary _ l r => l.diceCount + r.diceCount
  | dice c s => c.diceCount + s.diceCount + 1

/-- The tree with a total for each roll, from totals in post-order. -/
def settle (totals : List Int64) : Expr → Expr
  | literal x => literal x
  | binary op l r => binary op (l.settle totals) (r.settle (totals.drop l.diceCount))
  | dice c s => totals[c.diceCount + s.diceCount]?.elim (dice c s) literal

/-- The two operands of every roll in post-order, settled themselves. -/
def settledOperands (totals : List Int64) : Expr → List (Expr × Expr)
  | literal _ => []
  | binary _ l r => l.settledOperands totals ++ r.settledOperands (totals.drop l.diceCount)
  | dice c s =>
    c.settledOperands totals ++ (s.settledOperands (totals.drop c.diceCount) ++
      [(c.settle totals, s.settle (totals.drop c.diceCount))])

variable {totals : List Int64}

theorem le_length_drop {m n : Nat} (h : m + n ≤ totals.length) : n ≤ (totals.drop m).length := by
  rw [List.length_drop]
  omega

/-- A tree is settled by as many totals as it has rolls. -/
theorem settle_append (e : Expr) (h : e.diceCount ≤ totals.length) (more : List Int64) :
    e.settle (totals ++ more) = e.settle totals := by
  induction e generalizing totals with
  | literal x => rfl
  | binary op l r ihl ihr =>
    rw [diceCount] at h
    have hl : l.diceCount ≤ totals.length := by omega
    have hr : r.diceCount ≤ (totals.drop l.diceCount).length := le_length_drop h
    simp only [settle, List.drop_append_of_le_length hl, ihl hl, ihr hr]
  | dice c s ihc ihs =>
    rw [diceCount] at h
    rw [settle, settle, List.getElem?_append_left (by omega)]

theorem settledOperands_append (e : Expr) (h : e.diceCount ≤ totals.length) (more : List Int64) :
    e.settledOperands (totals ++ more) = e.settledOperands totals := by
  induction e generalizing totals with
  | literal x => rfl
  | binary op l r ihl ihr =>
    rw [diceCount] at h
    have hl : l.diceCount ≤ totals.length := by omega
    have hr : r.diceCount ≤ (totals.drop l.diceCount).length := le_length_drop h
    simp only [settledOperands, List.drop_append_of_le_length hl, ihl hl, ihr hr]
  | dice c s ihc ihs =>
    rw [diceCount] at h
    have hc : c.diceCount ≤ totals.length := by omega
    have hs : s.diceCount ≤ (totals.drop c.diceCount).length := le_length_drop (by omega)
    simp only [settledOperands, List.drop_append_of_le_length hc, ihc hc, ihs hs,
      settle_append c hc, settle_append s hs]

end Expr

/-! ### What a log says about a tree -/

/-- The totals of all rolls, in the order in which they were made. -/
def RollRecord.totals (log : List RollRecord) : List Int64 := log.map RollRecord.total

theorem RollRecord.totals_append (log log' : List RollRecord) :
    totals (log ++ log') = totals log ++ totals log' := List.map_append

theorem RollRecord.length_totals (log : List RollRecord) : (totals log).length = log.length :=
  List.length_map _

/-- The roll is what its two operands come to, brought within the limits as integers. -/
def RollRecord.Clamped (limits : Limits) (operands : Expr × Expr) (record : RollRecord) : Prop :=
  ∃ v w, operands.1.value? = some v ∧ operands.2.value? = some w ∧
    (record.count.toNat : Int) = min (max v.toInt 0) limits.maxCount.toNat ∧
    (record.sides.toNat : Int) = min (max w.toInt 1) limits.maxSides.toNat

/-- The request that the roll made of the source. -/
def RollRecord.request (record : RollRecord) : Request :=
  .batch record.count.toNat record.sides

open RollRecord (totals)

variable {limits : Limits} {e : Expr} {log : List RollRecord} {v : Int64}

namespace Expr.Explained

/-- No operator spares a roll. -/
theorem length_eq (h : e.Explained limits log v) : log.length = e.diceCount := by
  induction h with
  | literal x => rfl
  | binary op hl hr ihl ihr => simp [diceCount, ihl, ihr]
  | dice hc hs hcount hsides ihc ihs => simp [diceCount, ihc, ihs, Nat.add_assoc]

theorem length_totals_eq (h : e.Explained limits log v) : (totals log).length = e.diceCount := by
  rw [RollRecord.length_totals, h.length_eq]

/-- The first operand takes its totals and leaves the others. -/
theorem settle_left (h : e.Explained limits log v) (more : List Int64) :
    e.settle (totals log ++ more) = e.settle (totals log) :=
  e.settle_append (Nat.le_of_eq h.length_totals_eq.symm) more

theorem settledOperands_left (h : e.Explained limits log v) (more : List Int64) :
    e.settledOperands (totals log ++ more) = e.settledOperands (totals log) :=
  e.settledOperands_append (Nat.le_of_eq h.length_totals_eq.symm) more

theorem drop_left (h : e.Explained limits log v) (more : List Int64) :
    (totals log ++ more).drop e.diceCount = more := by
  rw [← h.length_totals_eq, List.drop_left]

theorem value?_settle (h : e.Explained limits log v) :
    (e.settle (totals log)).value? = some v := by
  induction h with
  | literal x => rfl
  | @binary l r log log' a b op hl hr ihl ihr =>
    rw [RollRecord.totals_append, settle, hl.settle_left, hl.drop_left, value?, ihl, ihr]
    rfl
  | @dice c s log log' n m record hc hs hcount hsides ihc ihs =>
    have hlast : (totals (log ++ (log' ++ [record])))[c.diceCount + s.diceCount]? =
        some record.total := by
      simp [totals, ← hc.length_eq, ← hs.length_eq]
    rw [settle, hlast]
    rfl

theorem clamped (h : e.Explained limits log v) :
    List.Forall₂ (RollRecord.Clamped limits) (e.settledOperands (totals log)) log := by
  induction h with
  | literal x => exact .nil
  | @binary l r log log' a b op hl hr ihl ihr =>
    rw [RollRecord.totals_append, settledOperands, hl.settledOperands_left, hl.drop_left]
    exact List.rel_append ihl ihr
  | @dice c s log log' n m record hc hs hcount hsides ihc ihs =>
    rw [RollRecord.totals_append, RollRecord.totals_append, settledOperands,
      hc.settledOperands_left, hc.settle_left, hc.drop_left, hs.settledOperands_left,
      hs.settle_left]
    have hrecord : RollRecord.Clamped limits (c.settle (totals log), s.settle (totals log'))
        record := by
      refine ⟨n, m, hc.value?_settle, hs.value?_settle, ?_, ?_⟩
      · rw [hcount, Limits.toNat_clampCount]
      · rw [hsides, Limits.toNat_clampSides]
    exact List.rel_append ihc (List.rel_append ihs (.cons hrecord .nil))

end Expr.Explained

/-- A monitored source supplies the same log, and notes one batch for each record. -/
theorem Source.Supplies.monitored {σ : Type} [Source σ] {s t : σ} (h : Supplies s log t)
    (before : List Request) :
    Supplies (Monitored.mk s before) log
      (Monitored.mk t (before ++ log.map RollRecord.request)) := by
  induction h generalizing before with
  | nil s =>
    rw [List.map_nil, List.append_nil]
    exact .nil _
  | @cons s t u record log hr hlog ih =>
    have hrest := ih (before ++ [record.request])
    rw [List.append_assoc] at hrest
    exact .cons (Monitored.rollMany_eq hr before) hrest

/-- What a successful evaluation logs explains its total: every roll of the tree has a
record, the totals of the records in place of the rolls give the total of the tree, each
record is of the roll that its settled operands demand, and nothing else was asked of
the source. -/
theorem evaluate_settled {σ : Type} [Source σ] {reading : Reading} {source source' : σ}
    {E : Evaluation} (h : reading.evaluate source limits = (.ok E, source')) :
    E.log.length = reading.tree.diceCount ∧
    (reading.tree.settle (totals E.log)).value? = some E.total ∧
    List.Forall₂ (RollRecord.Clamped limits) (reading.tree.settledOperands (totals E.log)) E.log ∧
    reading.evaluate (Monitored.mk source []) limits =
      (.ok E, Monitored.mk source' (E.log.map RollRecord.request)) := by
  obtain ⟨hmath, he, hs⟩ := Reading.evaluate_eq_ok.1 h
  refine ⟨he.length_eq, he.value?_settle, he.clamped, ?_⟩
  exact Reading.evaluate_eq_ok.2 ⟨hmath, he, hs.monitored []⟩

/-- Dice whose number is thrown first, and whose total is multiplied by zero. -/
theorem evaluate_settled_nested_dice :
    ∃ (reading : Reading) (limits : Limits) (E : Evaluation),
      reading.tree =
        .binary .mul (.dice (.dice (.literal 1) (.literal 4)) (.literal 6)) (.literal 0) ∧
      limits.maxCount.toNat = UInt64.size - 1 ∧
      reading.evaluate (Script.once [2, 5, 6]) limits = (.ok E, Script.once []) ∧
      totals E.log = [2, 11] ∧ E.log.length = 2 ∧
      (reading.tree.settle [2, 11]).value? = some E.total ∧
      List.Forall₂ (RollRecord.Clamped limits)
        [(.literal 1, .literal 4), (.literal 2, .literal 6)] E.log ∧
      reading.evaluate (Monitored.mk (Script.once [2, 5, 6]) []) limits =
        (.ok E, Monitored.mk (Script.once [])
          [.batch 1 (Sides.ofNat 4 (by decide) (by decide)),
            .batch 2 (Sides.ofNat 6 (by decide) (by decide))]) := by
  have heval : (Reading.mk (.binary .mul (.dice (.dice (.literal 1) (.literal 4)) (.literal 6))
      (.literal 0)) "( d 4 ) d 6 * 0").evaluate (Script.once [2, 5, 6])
      { maxCount := 0xffffffffffffffff } =
      (.ok { total := 0
             log := [⟨1, Sides.ofNat 4 (by decide) (by decide), [2]⟩,
               ⟨2, Sides.ofNat 6 (by decide) (by decide), [5, 6]⟩]
             math := "( d 4 ) d 6 * 0" }, Script.once []) := by rfl
  obtain ⟨hlength, hvalue, hclamped, hmonitored⟩ := evaluate_settled heval
  exact ⟨_, _, _, rfl, rfl, heval, rfl, hlength, hvalue, hclamped, hmonitored⟩

end DiceNotation
