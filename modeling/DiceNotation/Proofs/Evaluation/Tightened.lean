import DiceNotation.Proofs.Evaluation.Sound

/-! Tighter limits. A clamp that ends within the tighter of two limits is the clamp by
either, so an account of an expression under the looser limits whose rolls are all within
the tighter ones is one under these too. The source is asked for the same rolls then, and an
evaluation notices its limits only where they are exceeded. -/

namespace DiceNotation

/-- Whatever `tight` admits, `loose` admits too. -/
structure Limits.Tighter (tight loose : Limits) : Prop where
  count_le : tight.maxCount.toNat ≤ loose.maxCount.toNat
  sides_le : tight.maxSides.toNat ≤ loose.maxSides.toNat

variable {tight loose : Limits} {e : Expr} {log : List RollRecord} {v : Int64}

namespace Limits

theorem Tighter.clampCount_eq (h : tight.Tighter loose) {count : Int64}
    (hle : (loose.clampCount count).toNat ≤ tight.maxCount.toNat) :
    tight.clampCount count = loose.clampCount count := by
  have htight := tight.toNat_clampCount count
  have hloose := loose.toNat_clampCount count
  have hlimit := h.count_le
  rw [← UInt64.toNat_inj]
  omega

theorem Tighter.clampSides_eq (h : tight.Tighter loose) {sides : Int64}
    (hle : (loose.clampSides sides).toNat ≤ tight.maxSides.toNat) :
    tight.clampSides sides = loose.clampSides sides := by
  have htight := tight.toNat_clampSides sides
  have hloose := loose.toNat_clampSides sides
  have hlimit := h.sides_le
  rw [← Sides.toNat_inj]
  omega

end Limits

/-- The same log accounts for the expression, since its rolls are clamped alike. -/
theorem Expr.Explained.tighten (he : e.Explained loose log v) (h : tight.Tighter loose)
    (hlog : ∀ record ∈ log, record.Within tight) : e.Explained tight log v := by
  induction he with
  | literal x => exact .literal x
  | binary op hl hr ihl ihr =>
    obtain ⟨hleft, hright⟩ := List.forall_mem_append.1 hlog
    exact .binary op (ihl hleft) (ihr hright)
  | @dice c s log log' n m record hc hs hcount hsides ihc ihs =>
    simp only [List.forall_mem_append, List.forall_mem_singleton] at hlog
    obtain ⟨hofCount, hofSides, hrecord⟩ := hlog
    rw [RollRecord.Within, hcount, hsides] at hrecord
    refine .dice (ihc hofCount) (ihs hofSides) ?_ ?_
    · rw [hcount, h.clampCount_eq hrecord.1]
    · rw [hsides, h.clampSides_eq hrecord.2]

/-- An evaluation that succeeds under the looser limits has the same outcome under the
tighter ones, and leaves the source as it does, exactly if these admit all its rolls. -/
theorem evaluate_tightened_iff {σ : Type} [Source σ] {reading : Reading} {source source' : σ}
    {E : Evaluation} (h : tight.Tighter loose)
    (hE : reading.evaluate source loose = (.ok E, source')) :
    reading.evaluate source tight = (.ok E, source') ↔
      ∀ record ∈ E.log, record.Within tight := by
  obtain ⟨hmath, he, hs⟩ := Reading.evaluate_eq_ok.1 hE
  constructor
  · intro htight
    obtain ⟨-, he', -⟩ := Reading.evaluate_eq_ok.1 htight
    exact he'.within
  · intro hlog
    exact Reading.evaluate_eq_ok.2 ⟨hmath, he.tighten h hlog, hs⟩

/-- The record is at both tighter limits: at that of the sides since it was clamped by the
same limit before, and at that of the count without having been clamped at all. -/
theorem evaluate_tightened_iff_at_limits :
    ∃ (tight loose : Limits) (reading : Reading) (E : Evaluation),
      tight.maxCount = 3 ∧ loose.maxCount = 0xffffffffffffffff ∧
      tight.maxSides.toNat = 6 ∧ loose.maxSides.toNat = 6 ∧ tight.Tighter loose ∧
      reading.tree = .dice (.literal 3) (.literal 20) ∧
      reading.evaluate (Script.once [1, 6, 2, 5]) loose = (.ok E, Script.once [5]) ∧
      (∀ record ∈ E.log, record.Within tight) ∧
      reading.evaluate (Script.once [1, 6, 2, 5]) tight = (.ok E, Script.once [5]) := by
  let six := Sides.ofNat 6 (by decide) (by decide)
  have htighter : Limits.Tighter ⟨3, six⟩ ⟨0xffffffffffffffff, six⟩ := ⟨by decide, by decide⟩
  have hloose : (Reading.mk (.dice (.literal 3) (.literal 20)) "3 d 20").evaluate
      (Script.once [1, 6, 2, 5]) ⟨0xffffffffffffffff, six⟩ =
      (.ok { total := 9, log := [⟨3, six, [1, 6, 2]⟩], math := "3 d 20" }, Script.once [5]) := by
    rfl
  have hwithin : ∀ record ∈ [RollRecord.mk 3 six [1, 6, 2]], record.Within ⟨3, six⟩ :=
    List.forall_mem_singleton.2 ⟨by decide, by decide⟩
  exact ⟨_, _, _, _, rfl, rfl, rfl, rfl, htighter, rfl, hloose, hwithin,
    (evaluate_tightened_iff htighter hloose).2 hwithin⟩

end DiceNotation
