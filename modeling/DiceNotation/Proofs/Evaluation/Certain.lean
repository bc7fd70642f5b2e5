import DiceNotation.Proofs.Evaluation.Scripted
import DiceNotation.Proofs.Evaluation.Sound

/-! Expressions that leave nothing to chance. No dice at all, and dice with one side, can
fall in one way only; an expression that makes no other rolls has one log and one total,
and so the same outcome on every honest source that does not fail. -/

namespace DiceNotation

/-- A roll that can come to one result only. -/
def RollRecord.Forced (record : RollRecord) : Prop :=
  record.count = 0 ∨ record.sides.toUInt32 = 1

/-- All rolls are forced, whatever the dice show. -/
def Expr.Certain (limits : Limits) (e : Expr) : Prop :=
  ∀ log v, e.Explained limits log v → (∀ record ∈ log, record.Honest) →
    ∀ record ∈ log, record.Forced

variable {limits : Limits} {e : Expr} {log log' : List RollRecord} {v v' : Int64}

/-! ### Forced rolls -/

theorem RollRecord.Forced.rolls_eq {record : RollRecord} (h : record.Forced)
    (hh : record.Honest) : record.rolls = List.replicate record.count.toNat 1 := by
  obtain ⟨hlen, hall⟩ := hh
  refine List.eq_replicate_iff.2 ⟨hlen, fun face hface => ?_⟩
  rcases h with hcount | hsides
  · have hnone : record.rolls = [] := by
      rw [hcount] at hlen
      exact List.eq_nil_of_length_eq_zero hlen
    rw [hnone] at hface
    cases hface
  · obtain ⟨hlow, hhigh⟩ := hall face hface
    rw [hsides] at hhigh
    exact UInt32.le_antisymm hhigh hlow

theorem RollRecord.Forced.eq {record record' : RollRecord} (h : record.Forced)
    (hh : record.Honest) (hh' : record'.Honest) (hcount : record'.count = record.count)
    (hsides : record'.sides = record.sides) : record' = record := by
  have h' : record'.Forced := by
    unfold Forced
    rwa [hcount, hsides]
  have hrolls : record'.rolls = record.rolls := by
    rw [h.rolls_eq hh, h'.rolls_eq hh', hcount]
  cases record
  cases record'
  cases hcount
  cases hsides
  cases hrolls
  rfl

/-! ### One log and one total -/

/-- If one account of an expression has forced rolls only, there is no other. -/
theorem Expr.Explained.eq_of_forced (h : e.Explained limits log v)
    (hf : ∀ record ∈ log, record.Forced) (hh : ∀ record ∈ log, record.Honest)
    (h' : e.Explained limits log' v') (hh' : ∀ record ∈ log', record.Honest) :
    log' = log ∧ v' = v := by
  induction h generalizing log' v' with
  | literal x =>
    cases h'
    exact ⟨rfl, rfl⟩
  | binary op hl hr ihl ihr =>
    cases h' with
    | binary _ hl' hr' =>
      obtain ⟨hfl, hfr⟩ := List.forall_mem_append.1 hf
      obtain ⟨hhl, hhr⟩ := List.forall_mem_append.1 hh
      obtain ⟨hhl', hhr'⟩ := List.forall_mem_append.1 hh'
      obtain ⟨rfl, rfl⟩ := ihl hfl hhl hl' hhl'
      obtain ⟨rfl, rfl⟩ := ihr hfr hhr hr' hhr'
      exact ⟨rfl, rfl⟩
  | dice hc hs hcount hsides ihc ihs =>
    cases h' with
    | dice hc' hs' hcount' hsides' =>
      simp only [List.forall_mem_append, List.forall_mem_singleton] at hf hh hh'
      obtain ⟨hfc, hfs, hforced⟩ := hf
      obtain ⟨hhc, hhs, honest⟩ := hh
      obtain ⟨hhc', hhs', honest'⟩ := hh'
      obtain ⟨rfl, rfl⟩ := ihc hfc hhc hc' hhc'
      obtain ⟨rfl, rfl⟩ := ihs hfs hhs hs' hhs'
      have hrecord := hforced.eq honest honest' (hcount'.trans hcount.symm)
        (hsides'.trans hsides.symm)
      rw [hrecord]
      exact ⟨rfl, rfl⟩

theorem Expr.Explained.certain (h : e.Explained limits log v)
    (hf : ∀ record ∈ log, record.Forced) (hh : ∀ record ∈ log, record.Honest) :
    e.Certain limits := by
  intro log' v' h' hh'
  obtain ⟨rfl, -⟩ := h.eq_of_forced hf hh h' hh'
  exact hf

/-- The outcome does not depend on the source. -/
theorem Expr.Certain.exists_outcome {reading : Reading} (h : reading.tree.Certain limits)
    {σ : Type} [Source σ] (honest : Source.Honest σ) (unfailing : Source.Unfailing σ) :
    ∃ E, ∀ source : σ, ∃ source', reading.evaluate source limits = (.ok E, source') := by
  obtain ⟨log, v, he, hh⟩ := reading.tree.exists_explained limits
  refine ⟨{ total := v, log, math := reading.math }, fun source => ?_⟩
  obtain ⟨E, source', hE⟩ := unfailing.evaluate reading source limits
  obtain ⟨hmath, he', hs⟩ := Reading.evaluate_eq_ok.1 hE
  obtain ⟨hlog, hv⟩ := he.eq_of_forced (h log v he hh) hh he' (hs.honest honest)
  refine ⟨source', ?_⟩
  rw [hE, ← hlog, ← hv, ← hmath]

end DiceNotation
