import DiceNotation.Proofs.Evaluation.Settled
import DiceNotation.Proofs.Operator.Exact

/-! Words against integers, over whole trees. Once each roll has its total, a tree has a value
in words and one in integers. If these differ, some operation in it is the first to leave the
range of a word: its operands are still exact, and its result is not. -/

namespace DiceNotation

open RollRecord (totals)
open Source (Supplies)

namespace Expr

/-! ### Exact values -/

/-- The value in integers of a tree without rolls. -/
def exactValue? : Expr → Option Int
  | literal x => some x.toInt
  | binary op l r => do return op.exact (← l.exactValue?) (← r.exactValue?)
  | dice _ _ => none

theorem exactValue?_binary {op : Operator} {l r : Expr} {x y : Int} (hl : l.exactValue? = some x)
    (hr : r.exactValue? = some y) : (binary op l r).exactValue? = some (op.exact x y) := by
  rw [exactValue?, hl, hr]
  rfl

/-- The tree and all trees within it. -/
def subtrees : Expr → List Expr
  | literal x => [literal x]
  | binary op l r => binary op l r :: (l.subtrees ++ r.subtrees)
  | dice c s => dice c s :: (c.subtrees ++ s.subtrees)

theorem self_mem_subtrees (e : Expr) : e ∈ e.subtrees := by
  cases e <;> exact List.mem_cons_self

/-- Within the tree is an operation on exact operands whose exact result is not a word. -/
def Overflows (e : Expr) : Prop :=
  ∃ op l r a b, binary op l r ∈ e.subtrees ∧ l.value? = some a ∧ r.value? = some b ∧
    l.exactValue? = some a.toInt ∧ r.exactValue? = some b.toInt ∧
    ¬InRange (op.exact a.toInt b.toInt)

theorem Overflows.mono {e e' : Expr} (h : e.Overflows) (hsub : e.subtrees ⊆ e'.subtrees) :
    e'.Overflows := by
  obtain ⟨op, l, r, a, b, hmem, hoverflow⟩ := h
  exact ⟨op, l, r, a, b, hsub hmem, hoverflow⟩

theorem Overflows.left {l : Expr} (h : l.Overflows) (op : Operator) (r : Expr) :
    (binary op l r).Overflows := h.mono fun _ hsub => by simp [subtrees, hsub]

theorem Overflows.right {r : Expr} (h : r.Overflows) (op : Operator) (l : Expr) :
    (binary op l r).Overflows := h.mono fun _ hsub => by simp [subtrees, hsub]

/-- The first operation whose result is not exact has exact operands, and overflows. -/
theorem exactValue?_or_overflows {e : Expr} {v : Int64} (h : e.value? = some v) :
    ∃ z, e.exactValue? = some z ∧ (v.toInt = z ∨ e.Overflows) := by
  induction e generalizing v with
  | literal x =>
    cases h
    exact ⟨x.toInt, rfl, .inl rfl⟩
  | binary op l r ihl ihr =>
    obtain ⟨a, b, ha, hb, rfl⟩ := value?_binary_eq_some.1 h
    obtain ⟨x, hx, hl⟩ := ihl ha
    obtain ⟨y, hy, hr⟩ := ihr hb
    refine ⟨op.exact x y, exactValue?_binary hx hy, ?_⟩
    rcases hl with rfl | hl
    · rcases hr with rfl | hr
      · by_cases hrange : InRange (op.exact a.toInt b.toInt)
        · exact .inl (Operator.toInt_apply_of_inRange hrange)
        · exact .inr ⟨op, l, r, a, b, self_mem_subtrees _, ha, hb, hx, hy, hrange⟩
      · exact .inr (hr.right op l)
    · exact .inr (hl.left op r)
  | dice c s ihc ihs => cases h

/-- No operation overflows in a tree whose subtrees all have words for their exact values. -/
theorem not_overflows {e : Expr}
    (h : ∀ sub ∈ e.subtrees, ∀ z ∈ sub.exactValue?, InRange z) : ¬e.Overflows := by
  rintro ⟨op, l, r, a, b, hmem, -, -, hl, hr, hrange⟩
  exact hrange (h _ hmem _ (exactValue?_binary hl hr))

theorem exactValue?_of_inRange {e : Expr} {v : Int64} (h : e.value? = some v)
    (hrange : ∀ sub ∈ e.subtrees, ∀ z ∈ sub.exactValue?, InRange z) :
    e.exactValue? = some v.toInt := by
  obtain ⟨z, hz, rfl | hoverflow⟩ := exactValue?_or_overflows h
  · exact hz
  · exact absurd hoverflow (not_overflows hrange)

/-! ### Subtrees in the course of an evaluation -/

/-- Every subtree with the records of its own rolls. -/
def shares (log : List RollRecord) : Expr → List (Expr × List RollRecord)
  | literal x => [(literal x, log)]
  | binary op l r =>
    (binary op l r, log) :: (l.shares (log.take l.diceCount) ++ r.shares (log.drop l.diceCount))
  | dice c s =>
    (dice c s, log) :: (c.shares (log.take c.diceCount) ++
      s.shares ((log.drop c.diceCount).take s.diceCount))

variable {σ : Type} [Source σ] {limits : Limits}

namespace Explained

variable {e : Expr} {log : List RollRecord} {v : Int64}

theorem take_log (h : e.Explained limits log v) (more : List RollRecord) :
    (log ++ more).take e.diceCount = log := List.take_left' h.length_eq

theorem drop_log (h : e.Explained limits log v) (more : List RollRecord) :
    (log ++ more).drop e.diceCount = more := List.drop_left' h.length_eq

/-- Every subtree has its own account, and its rolls were supplied on the way. -/
theorem of_mem_shares (h : e.Explained limits log v) {s t : σ} (hs : Supplies s log t) :
    ∀ share ∈ e.shares log, ∃ w before after,
      share.1.Explained limits share.2 w ∧ Supplies (before : σ) share.2 after := by
  induction h generalizing s t with
  | literal x =>
    exact List.forall_mem_singleton.2 ⟨x, s, t, .literal x, hs⟩
  | binary op hl hr ihl ihr =>
    obtain ⟨u, hsl, hsr⟩ := hs.of_append
    rw [shares, hl.take_log, hl.drop_log]
    refine List.forall_mem_cons.2 ⟨⟨_, s, t, .binary op hl hr, hs⟩, ?_⟩
    exact List.forall_mem_append.2 ⟨ihl hsl, ihr hsr⟩
  | dice hc hs' hcount hsides ihc ihs =>
    obtain ⟨u, hsc, hrest⟩ := hs.of_append
    obtain ⟨w, hss, -⟩ := hrest.of_append
    rw [shares, hc.take_log, hc.drop_log, hs'.take_log]
    refine List.forall_mem_cons.2 ⟨⟨_, s, t, .dice hc hs' hcount hsides, hs⟩, ?_⟩
    exact List.forall_mem_append.2 ⟨ihc hsc, ihs hss⟩

end Explained

end Expr

/-- Every operation comes to its exact result, brought into the range of a word. So the total
of an evaluation is exact if, with a total for each roll, all subtrees have exact values in
this range; and wherever a subtree, be it an operand of a roll, evaluates to anything but its
exact value, an operation in it exceeds the range. -/
theorem evaluate_exact :
    (∀ (op : Operator) (a b : Int64), (op.apply a b).toInt =
      max Int64.minValue.toInt (min (op.exact a.toInt b.toInt) Int64.maxValue.toInt)) ∧
    ∀ {σ : Type} [Source σ] {reading : Reading} {limits : Limits} {source source' : σ}
      {E : Evaluation}, reading.evaluate source limits = (.ok E, source') →
        ((∀ sub ∈ (reading.tree.settle (totals E.log)).subtrees,
            ∀ z ∈ sub.exactValue?, InRange z) →
          (reading.tree.settle (totals E.log)).exactValue? = some E.total.toInt) ∧
        ∀ share ∈ reading.tree.shares E.log, ∃ (before after : σ) (v : Int64) (z : Int),
          share.1.eval limits { source := before } =
            (.ok v, { source := after, log := share.2, events := share.2.map .rolled }) ∧
          (share.1.settle (totals share.2)).value? = some v ∧
          (share.1.settle (totals share.2)).exactValue? = some z ∧
          (v.toInt ≠ z → (share.1.settle (totals share.2)).Overflows) := by
  refine ⟨Operator.toInt_apply, ?_⟩
  intro σ _ reading limits source source' E h
  obtain ⟨-, he, hs⟩ := Reading.evaluate_eq_ok.1 h
  refine ⟨Expr.exactValue?_of_inRange he.value?_settle, fun share hshare => ?_⟩
  obtain ⟨v, before, after, hsub, hsupplies⟩ := he.of_mem_shares hs share hshare
  obtain ⟨z, hz, hexact⟩ := Expr.exactValue?_or_overflows hsub.value?_settle
  have heval := hsub.eval { source := before } hsupplies
  exact ⟨before, after, v, z, heval, hsub.value?_settle, hz, hexact.resolve_left⟩

/-- A product of rolls that is exact, and a sum that is not: it stops at the greatest word,
from which the difference above it goes on. -/
theorem evaluate_exact_saturated :
    let rolls : Expr := .dice (.dice (.literal 1) (.literal 4)) (.literal 6)
    let sum : Expr := .binary .add (.literal Int64.maxValue) (.dice (.literal 1) (.literal 6))
    let product : Reading := { tree := .binary .mul rolls (.literal (-3)), math := "" }
    let difference : Reading := { tree := .binary .sub sum (.literal 1), math := "" }
    ∃ E F : Evaluation,
      product.evaluate (Script.once [2, 5, 6]) {} = (.ok E, Script.once []) ∧
      (∀ sub ∈ (product.tree.settle (totals E.log)).subtrees,
        ∀ z ∈ sub.exactValue?, InRange z) ∧
      (product.tree.settle (totals E.log)).exactValue? = some E.total.toInt ∧
      E.total.toInt = -33 ∧
      difference.evaluate (Script.once [5]) {} = (.ok F, Script.once []) ∧
      (difference.tree.settle (totals F.log)).exactValue? = some (2 ^ 63 + 3) ∧
      F.total.toInt = 2 ^ 63 - 2 ∧ (difference.tree.settle (totals F.log)).Overflows := by
  intro rolls sum product difference
  have hproduct : product.evaluate (Script.once [2, 5, 6]) {} =
      (.ok { total := -33
             log := [⟨1, Sides.ofNat 4 (by decide) (by decide), [2]⟩,
               ⟨2, Sides.ofNat 6 (by decide) (by decide), [5, 6]⟩]
             math := "" }, Script.once []) := by rfl
  have hdifference : difference.evaluate (Script.once [5]) {} =
      (.ok { total := 9223372036854775806
             log := [⟨1, Sides.ofNat 6 (by decide) (by decide), [5]⟩]
             math := "" }, Script.once []) := by rfl
  have hrange := (evaluate_exact.2 hproduct).1
  obtain ⟨before, after, v, z, -, hv, hz, hoverflow⟩ :=
    (evaluate_exact.2 hdifference).2 _ List.mem_cons_self
  cases hv
  cases hz
  exact ⟨_, _, hproduct, by decide, hrange (by decide), rfl, hdifference, rfl, rfl,
    hoverflow (by decide)⟩

end DiceNotation
