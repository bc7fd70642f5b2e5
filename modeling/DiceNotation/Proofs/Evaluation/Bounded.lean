import DiceNotation.Proofs.Evaluation.Settled
import DiceNotation.Proofs.Evaluation.Sound
import DiceNotation.Proofs.Reader.Moves
import DiceNotation.Proofs.Reader.Soundness
import DiceNotation.Proofs.Token.RoundTrip
import Mathlib.Algebra.Order.BigOperators.Group.List
import Mathlib.Algebra.Order.Ring.Nat

/-! What reading and evaluating can cost. Every operation and every roll of a tree was read
from a token of its own, whatever is missing or left open, so that the number of tokens
bounds the height of the tree, the rolls of an evaluation and the dice thrown; and the
brackets open at once are bounded whatever the number of tokens. -/

namespace DiceNotation

open Token (Abridged maxTokens tokenize)

/-! ### Nodes and tokens -/

/-- Operators and the `d` make the inner nodes of a tree. -/
def Token.isInner (t : Token) : Bool := t.operator?.isSome || t = dice

namespace Expr

/-- The number of operations and rolls. -/
def size : Expr → Nat
  | literal _ => 0
  | binary _ l r => l.size + r.size + 1
  | dice c s => c.size + s.size + 1

/-- The greatest number of operations and rolls, one an operand of the other. -/
def height : Expr → Nat
  | literal _ => 0
  | binary _ l r => max l.height r.height + 1
  | dice c s => max c.height s.height + 1

theorem height_le_size (e : Expr) : e.height ≤ e.size := by
  induction e with
  | literal x => exact Nat.le_refl 0
  | binary op l r ihl ihr =>
    simp only [height, size]
    omega
  | dice c s ihc ihs =>
    simp only [height, size]
    omega

theorem isInner_of_operator? {t : Token} {op : Operator} (h : t.operator? = some op) :
    t.isInner = true ∧ t ≠ .dice := by
  cases t <;> first | contradiction | exact ⟨rfl, Token.noConfusion⟩

theorem Written.size_eq {l : Level} {w : List Token} {e : Expr} (h : Written l w e) :
    e.size = w.countP Token.isInner ∧ e.diceCount = w.count .dice := by
  have hdice : Token.isInner .dice = true := rfl
  induction h with
  | integer x => exact ⟨rfl, rfl⟩
  | bracket he ih => simpa [Token.isInner, Token.operator?] using ih
  | ofFactor he ih | ofDice he ih | ofProduct he ih => exact ih
  | dice hc hs ihc ihs => simp [size, diceCount, hdice, ihc, ihs, Nat.add_assoc]
  | oneDie hs ih => simp [size, diceCount, hdice, ih]
  | product hl ht hop hr ihl ihr | sum hl ht hop hr ihl ihr =>
    obtain ⟨hinner, hne⟩ := isInner_of_operator? ht
    simp [size, diceCount, hinner, hne, ihl, ihr, Nat.add_assoc]

end Expr

/-- No token that can be left out is of an inner node. -/
theorem Token.Abridged.countP_eq {w c : List Token} (h : Abridged w c) :
    w.countP isInner = c.countP isInner ∧ w.count dice = c.count dice := by
  induction h with
  | nil => exact ⟨rfl, rfl⟩
  | keep t h ih => simp [List.countP_cons, List.count_cons, ih]
  | zero h ih | one h ih | close h ih => simpa [isInner, operator?] using ih

namespace Expr

/-- The tokens read are those of a written form with some left out, so every operator and
every `d` is an inner node of the tree, or left over. -/
theorem size_add_leftover (ts : List Token) :
    (ofTokens ts).size + (read ts).2.countP Token.isInner = ts.countP Token.isInner ∧
      (ofTokens ts).diceCount + (read ts).2.count .dice = ts.count .dice := by
  obtain ⟨c, r, hts, hsteps, hfinish, -⟩ := Reader.run_split maxDepth {} ts
  obtain ⟨w, hw, hr, hn⟩ := steps?_written readerWritten_empty (Nat.zero_le _) hsteps
  obtain ⟨z, hz, hwritten, -⟩ := finish_written hr hn
  have hread : ofTokens ts = r.finish := hfinish
  have hts : ts = c ++ (read ts).2 := hts
  obtain ⟨hsize, hdice⟩ := hwritten.size_eq
  obtain ⟨hinner, hcount⟩ := (hw.append hz).countP_eq
  rw [List.nil_append] at hsize hdice
  rw [List.append_nil] at hinner hcount
  rw [hread, hsize, hdice, hinner, hcount, ← List.countP_append, ← List.count_append, ← hts]
  exact ⟨rfl, rfl⟩

theorem size_ofTokens_le (ts : List Token) :
    (ofTokens ts).size ≤ ts.countP Token.isInner ∧ (ofTokens ts).diceCount ≤ ts.count .dice := by
  obtain ⟨hsize, hdice⟩ := size_add_leftover ts
  omega

theorem size_le_maxTokens (text : String) :
    (Reading.ofText text).tree.size ≤ maxTokens ∧
      (Reading.ofText text).tree.diceCount ≤ maxTokens := by
  obtain ⟨hsize, hdice⟩ := size_ofTokens_le (tokenize text)
  have hlen := (Token.tokenized_tokenize text).length_le
  exact ⟨Nat.le_trans hsize (Nat.le_trans List.countP_le_length hlen),
    Nat.le_trans hdice (Nat.le_trans List.count_le_length hlen)⟩

/-! ### Moves from the start -/

/-- Reading moves to where the outermost group is complete. -/
theorem exists_reads_read (ts : List Token) :
    ∃ g x rest, Reader.Reads maxDepth 0 ({}, ts) ({ group := g, operand := some x }, rest) ∧
      read ts = (g.close x, rest) := by
  obtain ⟨g, x, rest, hreads, -, hread⟩ := Reader.exists_reads_readWithin maxDepth ts
  exact ⟨g, x, rest, hreads, hread⟩

end Expr

/-! ### Dice thrown -/

/-- The number of dice in a request. -/
def Request.count : Request → Nat
  | die _ => 1
  | batch count _ => count

theorem Expr.Explained.sum_count_le {limits : Limits} {e : Expr} {log : List RollRecord}
    {v : Int64} (h : e.Explained limits log v) :
    ((log.map RollRecord.request).map Request.count).sum ≤
      log.length * limits.maxCount.toNat := by
  have hcount : ∀ n ∈ (log.map RollRecord.request).map Request.count,
      n ≤ limits.maxCount.toNat := by
    simp only [List.forall_mem_map]
    exact fun record hrecord => (h.within record hrecord).1
  have hsum := List.sum_le_card_nsmul _ _ hcount
  rwa [List.length_map, List.length_map, Nat.nsmul_eq_mul] at hsum

/-- Honest records have a face for each of the dice asked for. -/
theorem RollRecord.length_faces {log : List RollRecord} (h : ∀ record ∈ log, record.Honest) :
    (faces log).length = ((log.map request).map Request.count).sum := by
  rw [faces, List.length_flatMap, List.map_map]
  exact congrArg List.sum (List.map_congr_left fun record hrecord => (h record hrecord).1)

/-! ### Bounds -/

open DiceNotation.Expr (maxDepth ofTokens read)
open DiceNotation.Expr.Reader (Complete Reads)

/-- The tree has no more inner nodes than the tokens have operators and `d`s, and no more
rolls than `d`s. The moves of reading end in what is read, and at every one of them at most
`maxDepth` groups are open: where an operand is due, moves lead to the end of its group, and
to the operand if one is asked for, with the groups around as they were and never fewer. So
the tree of a text is at most `maxTokens` high, an evaluation makes at most so many rolls,
and it throws at most so many times the greatest number of dice. -/
theorem read_bounded :
    (∀ ts : List Token,
      (ofTokens ts).size ≤ ts.countP Token.isInner ∧ (ofTokens ts).diceCount ≤ ts.count .dice ∧
      (∃ g x rest, Reads maxDepth 0 ({}, ts) ({ group := g, operand := some x }, rest) ∧
        read ts = (g.close x, rest)) ∧
      ∀ r us, Reads maxDepth 0 ({}, ts) (r, us) →
        r.depth ≤ maxDepth ∧
        (r.operand = none → ∃ g x rest, Complete g x rest ∧
          Reads maxDepth r.depth (r, us)
            ({ group := g, outer := r.outer, operand := some x }, rest)) ∧
        (r.operand = none → (us.head? = some .dice → r.group.count ≠ none) → ∃ x rest,
          Reads maxDepth r.depth (r, us) ({ r with operand := some x }, rest))) ∧
    ∀ text : String,
      (Reading.ofText text).tree.height ≤ maxTokens ∧
      ∀ {σ : Type} [Source σ] {source source' : σ} {limits : Limits} {E : Evaluation},
        evaluate text source limits = (.ok E, source') →
          E.log.length ≤ maxTokens ∧
          (∃ requests,
            evaluate text (Monitored.mk source []) limits = (.ok E, Monitored.mk source' requests) ∧
            (requests.map Request.count).sum ≤ maxTokens * limits.maxCount.toNat) ∧
          (Source.Honest σ → E.faces.length ≤ maxTokens * limits.maxCount.toNat) := by
  constructor
  · intro ts
    obtain ⟨hsize, hdice⟩ := Expr.size_ofTokens_le ts
    refine ⟨hsize, hdice, Expr.exists_reads_read ts, fun r us hreads => ?_⟩
    refine ⟨hreads.depth_le (Nat.zero_le _), fun hr => ?_, fun hr hcount => ?_⟩
    · obtain ⟨g, x, rest, -, hend, hcomplete⟩ := Expr.Reader.finishes maxDepth r us hr
      exact ⟨g, x, rest, hcomplete, hend⟩
    · obtain ⟨x, rest, -, hend⟩ := Expr.Reader.findsOperand maxDepth hr hcount
      exact ⟨x, rest, hend⟩
  · intro text
    obtain ⟨hsize, hdice⟩ := Expr.size_le_maxTokens text
    refine ⟨Nat.le_trans (Expr.height_le_size _) hsize, ?_⟩
    intro σ _ source source' limits E h
    obtain ⟨hmath, he, hs⟩ := Reading.evaluate_eq_ok.1 h
    have hlength : E.log.length ≤ maxTokens := by
      rw [he.length_eq]
      exact hdice
    have hsum := Nat.le_trans he.sum_count_le (Nat.mul_le_mul_right _ hlength)
    refine ⟨hlength, ⟨E.log.map RollRecord.request, ?_, hsum⟩, fun honest => ?_⟩
    · exact Reading.evaluate_eq_ok.2 ⟨hmath, he, hs.monitored []⟩
    · rw [Evaluation.faces, RollRecord.length_faces (hs.honest honest)]
      exact hsum

/-- A `d` without a count and two brackets left open. The second is met with one group
open, and once it is an operand one group is open again. -/
theorem read_bounded_open_brackets :
    let ts : List Token :=
      [.leftParen, .dice, .integer 4, .star, .leftParen, .integer 2, .dice, .integer 6]
    let inner : Expr.Reader :=
      { group := { product := some (.dice (.literal 1) (.literal 4), .mul) }, outer := [{}] }
    ∃ E : Evaluation, E.total = 3 ∧ (ofTokens ts).size ≤ ts.countP Token.isInner ∧
      (ofTokens ts).diceCount ≤ ts.count .dice ∧
      Reads maxDepth 0 ({}, ts) (inner, [.leftParen, .integer 2, .dice, .integer 6]) ∧
      inner.depth ≤ maxDepth ∧
      (∃ x rest, Reads maxDepth inner.depth (inner, [.leftParen, .integer 2, .dice, .integer 6])
        ({ inner with operand := some x }, rest)) ∧
      evaluate "(d4*(2d6" (Script.once [1, 1, 2]) {} = (.ok E, Script.once []) ∧
      E.log.length ≤ maxTokens ∧ Source.Honest Script ∧
      E.faces.length ≤ maxTokens * ({} : Limits).maxCount.toNat := by
  intro ts inner
  obtain ⟨hsize, hdice, -, hmoves⟩ := read_bounded.1 ts
  have hreads : Reads maxDepth 0 ({}, ts) (inner, [.leftParen, .integer 2, .dice, .integer 6]) :=
    .head rfl (Nat.zero_le _) (.head rfl (Nat.zero_le _) (.head rfl (Nat.zero_le _)
      (.head rfl (Nat.zero_le _) .refl)))
  obtain ⟨hdepth, -, hoperand⟩ := hmoves inner _ hreads
  have heval : evaluate "(d4*(2d6" (Script.once [1, 1, 2]) {} =
      (.ok { total := 3
             log := [⟨1, Sides.ofNat 4 (by decide) (by decide), [1]⟩,
               ⟨2, Sides.ofNat 6 (by decide) (by decide), [1, 2]⟩]
             math := "( d 4 * ( 2 d 6" }, Script.once []) := by decide +kernel
  obtain ⟨hlength, -, hfaces⟩ := (read_bounded.2 "(d4*(2d6").2 heval
  exact ⟨_, rfl, hsize, hdice, hreads, hdepth, hoperand rfl (by simp), heval, hlength,
    Script.honest, hfaces Script.honest⟩

end DiceNotation
