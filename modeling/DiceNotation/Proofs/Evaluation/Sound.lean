import DiceNotation.Proofs.Evaluation.Faulted
import DiceNotation.Proofs.Evaluation.Replay
import DiceNotation.Proofs.Source.Checked
import Mathlib.Algebra.Order.BigOperators.Group.List
import Mathlib.Algebra.Order.Ring.Nat

/-! What every log says of its rolls. Whatever the operands came to, a roll is within the
limits and every face is on its die; and if the greatest total that the limits admit fits
a word, the total of every record is the exact sum of its faces. Nothing but a fault of
the source keeps an expression from a value, except that a stepping source under a check
for overflow breaks off at the first one. -/

namespace DiceNotation

open RollRecord (faces)
open Source (Supplies)

variable {limits : Limits} {e : Expr} {log : List RollRecord} {record : RollRecord} {v : Int64}

/-! ### Totals -/

/-- The sum of faces as a number, which no word bounds. -/
def exactTotal (faces : List UInt32) : Nat := (faces.map UInt32.toNat).sum

theorem toInt64_face (face : UInt32) : face.toUInt64.toInt64 = Int64.ofNat face.toNat := by
  rw [← UInt32.toNat_toUInt64, ← UInt64.toInt64_ofNat', UInt64.ofNat_toNat]

/-- A total is the exact sum up to multiples of the word size. -/
theorem RollRecord.total_eq (record : RollRecord) :
    record.total = Int64.ofNat (exactTotal record.rolls) := by
  unfold RollRecord.total exactTotal
  induction record.rolls with
  | nil => rfl
  | cons face faces ih =>
    rw [List.map_cons, List.sum_cons, ih, toInt64_face, ← Int64.ofNat_add, List.map_cons,
      List.sum_cons]

theorem exactTotal_take_le (faces : List UInt32) (k : Nat) :
    exactTotal (faces.take k) ≤ exactTotal faces :=
  ((List.take_sublist k faces).map UInt32.toNat).sum_le_sum fun _ _ => Nat.zero_le _

/-- The sum is at least one and at most the number of sides for each die. -/
theorem exactTotal_bounds {faces : List UInt32} {sides : Sides}
    (h : ∀ face ∈ faces, sides.Shows face) :
    faces.length ≤ exactTotal faces ∧ exactTotal faces ≤ faces.length * sides.toNat := by
  have hlow := List.card_nsmul_le_sum (faces.map UInt32.toNat) 1 <| List.forall_mem_map.2
    fun face hface => UInt32.le_iff_toNat_le.1 (h face hface).1
  have hhigh := List.sum_le_card_nsmul (faces.map UInt32.toNat) sides.toNat <|
    List.forall_mem_map.2 fun face hface => UInt32.le_iff_toNat_le.1 (h face hface).2
  rw [List.length_map, Nat.nsmul_eq_mul] at hlow hhigh
  exact ⟨by rwa [Nat.mul_one] at hlow, hhigh⟩

/-! ### Records -/

/-- A roll within the limits: each of its dice shows a face, and the total is the sum of
the faces, with no overflow on the way. -/
structure RollRecord.Sound (limits : Limits) (record : RollRecord) : Prop where
  count_le : record.count.toNat ≤ limits.maxCount.toNat
  one_le_sides : 1 ≤ record.sides.toNat
  sides_le : record.sides.toNat ≤ limits.maxSides.toNat
  length_rolls : record.rolls.length = record.count.toNat
  shows : ∀ face ∈ record.rolls, 1 ≤ face.toNat ∧ face.toNat ≤ record.sides.toNat
  total_eq : record.total.toInt = exactTotal record.rolls
  no_overflow : ∀ k, exactTotal (record.rolls.take k) ≤ Int64.maxValue.toNatClampNeg
  le_total : (record.count.toNat : Int) ≤ record.total.toInt
  total_le : record.total.toInt ≤ record.count.toNat * record.sides.toNat

def RollRecord.Within (limits : Limits) (record : RollRecord) : Prop :=
  record.count.toNat ≤ limits.maxCount.toNat ∧ record.sides.toNat ≤ limits.maxSides.toNat

theorem Expr.Explained.within (h : e.Explained limits log v) :
    ∀ record ∈ log, record.Within limits := by
  induction h with
  | literal x => exact List.forall_mem_nil _
  | binary op hl hr ihl ihr => exact List.forall_mem_append.2 ⟨ihl, ihr⟩
  | @dice c s log log' n m record hc hs hcount hsides ihc ihs =>
    have hrecord : record.Within limits := by
      rw [RollRecord.Within, hcount, hsides]
      exact ⟨limits.clampCount_le n, limits.clampSides_le m⟩
    exact List.forall_mem_append.2
      ⟨ihc, List.forall_mem_append.2 ⟨ihs, List.forall_mem_singleton.2 hrecord⟩⟩

theorem RollRecord.Honest.sound (h : record.Honest)
    (hcount : record.count.toNat ≤ limits.maxCount.toNat)
    (hsides : record.sides.toNat ≤ limits.maxSides.toNat)
    (hlimits : limits.maxCount.toNat * limits.maxSides.toNat ≤ Int64.maxValue.toNatClampNeg) :
    record.Sound limits := by
  obtain ⟨hlen, hall⟩ := h
  obtain ⟨hlow, hhigh⟩ := exactTotal_bounds hall
  rw [hlen] at hlow hhigh
  have hproduct : record.count.toNat * record.sides.toNat ≤
      limits.maxCount.toNat * limits.maxSides.toNat := Nat.mul_le_mul hcount hsides
  have hmax : Int64.maxValue.toNatClampNeg = 2 ^ 63 - 1 := rfl
  have hfits : exactTotal record.rolls < 2 ^ 63 := by omega
  have htotal : record.total.toInt = exactTotal record.rolls := by
    rw [record.total_eq, Int64.toInt_ofNat_of_lt hfits]
  refine ⟨hcount, record.sides.toNat_pos, hsides, hlen, fun face hface => ?_, htotal,
    fun k => ?_, ?_, ?_⟩
  · have hshows := hall face hface
    exact ⟨UInt32.le_iff_toNat_le.1 hshows.1, UInt32.le_iff_toNat_le.1 hshows.2⟩
  · have := exactTotal_take_le record.rolls k
    omega
  · rw [htotal]
    exact Int.ofNat_le.2 hlow
  · rw [htotal]
    exact_mod_cast hhigh

theorem Expr.Explained.sound (h : e.Explained limits log v)
    (hh : ∀ record ∈ log, record.Honest)
    (hlimits : limits.maxCount.toNat * limits.maxSides.toNat ≤ Int64.maxValue.toNatClampNeg) :
    ∀ record ∈ log, record.Sound limits := by
  intro record hrecord
  obtain ⟨hcount, hsides⟩ := h.within record hrecord
  exact (hh record hrecord).sound hcount hsides hlimits

/-! ### Sources that never fail -/

/-- Every batch has its faces. -/
def Source.Unfailing (σ : Type) [Source σ] : Prop :=
  ∀ (count : Nat) (sides : Sides) (s : σ),
    ∃ faces t, Source.rollMany count sides s = (.ok faces, t)

theorem Draw.times_unfailing {σ α : Type} {draw : Draw σ α}
    (h : ∀ s, ∃ x t, draw s = (.ok x, t)) (n : Nat) (s : σ) :
    ∃ xs t, draw.times n s = (.ok xs, t) := by
  induction n generalizing s with
  | zero => exact ⟨[], s, rfl⟩
  | succ n ih =>
    obtain ⟨x, t, hx⟩ := h s
    obtain ⟨xs, u, hxs⟩ := ih t
    refine ⟨x :: xs, u, ?_⟩
    rw [Draw.times, Draw.bind_of_ok hx, Draw.bind_of_ok hxs, Draw.pure_apply]

theorem Generator.unfailing {γ : Type} [Generator γ] : Source.Unfailing γ :=
  fun _ _ _ => ⟨_, _, rfl⟩

theorem Words.unfailing : Source.Unfailing Words := Generator.unfailing

theorem Stepping.unfailing : Source.Unfailing Stepping := by
  intro count sides s
  exact Draw.times_unfailing (fun s => ⟨_, _, rfl⟩) count s

theorem Source.Unfailing.evaluate {σ : Type} [Source σ] (h : Source.Unfailing σ)
    (reading : Reading) (source : σ) (limits : Limits) :
    ∃ E source', reading.evaluate source limits = (.ok E, source') := by
  rcases hresult : reading.evaluate source limits with ⟨fault | E, source'⟩
  -- A failed evaluation would have come to a batch without faces.
  · obtain ⟨log, count, sides, s, -, -, hr⟩ := Reading.evaluate_eq_error.1 hresult
    obtain ⟨faces, t, hok⟩ := h count.toNat sides s
    rw [hok] at hr
    cases hr
  · exact ⟨E, source', rfl⟩

/-! ### Overflow of a stepping source -/

namespace Stepping

namespace Checked

theorem supplies {s t : Stepping} (h : Supplies s log t) (noted : Bool) :
    ∃ noted', Supplies (Checked.mk s noted) log (Checked.mk t noted') := by
  induction h generalizing noted with
  | nil s => exact ⟨noted, .nil _⟩
  | cons hr hlog ih =>
    obtain ⟨middle, hchecked⟩ := rollMany_of_ok hr noted
    obtain ⟨noted', hrest⟩ := ih middle
    exact ⟨noted', .cons hchecked hrest⟩

theorem Counts.supplies {start : Stepping} {n : Nat} {c c' : Checked} (h : Counts start n c)
    (hstart : start.current ≠ 0) (hs : Supplies c log c') :
    Counts start (n + (faces log).length) c' := by
  induction hs generalizing n with
  | nil c => exact h
  | cons hr hlog ih =>
    rw [RollRecord.faces_cons, List.length_append, ← Nat.add_assoc]
    exact ih (h.rollMany hstart hr)

end Checked

/-- The dice of an evaluation and the stride tell whether the count has overflowed. -/
theorem exists_evaluate_checked {start : Stepping} (hstart : start.current ≠ 0)
    (reading : Reading) (limits : Limits) :
    ∃ E s, reading.evaluate start limits = (.ok E, s) ∧
      reading.evaluate (Checked.mk start false) limits =
        (.ok E, ⟨s, decide (UInt32.size ≤ Checked.count start E.faces.length)⟩) := by
  obtain ⟨E, s, hE⟩ := Stepping.unfailing.evaluate reading start limits
  obtain ⟨hmath, he, hs⟩ := Reading.evaluate_eq_ok.1 hE
  obtain ⟨noted, hchecked⟩ := Checked.supplies hs false
  have hcounts := (Checked.counts_start start).supplies hstart hchecked
  have hnoted : noted = decide (UInt32.size ≤ Checked.count start E.faces.length) := by
    rw [Bool.eq_iff_iff, decide_eq_true_iff]
    rw [Nat.zero_add] at hcounts
    exact hcounts.overflowed_iff
  refine ⟨E, s, hE, ?_⟩
  rw [← hnoted]
  exact Reading.evaluate_eq_ok.2 ⟨hmath, he, hchecked⟩

end Stepping

/-! ### Soundness -/

/-- On an honest source, and generators, scripts and stepping sources are honest, every record
of a log is sound, whatever was read, if the greatest roll within the limits fits a word. On
a source that never fails every text has a value, under all limits. Among these are the
generators, and the stepping sources as they wrap around; under a check for overflow they
come through with the same outcome exactly if the count, made without bound, fits a word
after the last die. -/
theorem evaluate_log_sound :
    ((∀ {γ : Type} [Generator γ], Source.Honest γ) ∧ Source.Honest Script ∧
      Source.Honest Stepping) ∧
    (∀ {σ : Type} [Source σ], Source.Honest σ →
      ∀ {reading : Reading} {limits : Limits} {source source' : σ} {E : Evaluation},
        limits.maxCount.toNat * limits.maxSides.toNat ≤ Int64.maxValue.toNatClampNeg →
          reading.evaluate source limits = (.ok E, source') →
            ∀ record ∈ E.log, record.Sound limits) ∧
    ((∀ {γ : Type} [Generator γ], Source.Unfailing γ) ∧ Source.Unfailing Stepping) ∧
    (∀ {σ : Type} [Source σ], Source.Unfailing σ →
      ∀ (text : String) (source : σ) (limits : Limits),
        ∃ E source', evaluate text source limits = (.ok E, source')) ∧
    ∀ (text : String) (current stride : UInt32) (limits : Limits), current ≠ 0 →
      ∃ E s, evaluate text (Stepping.mk current stride) limits = (.ok E, s) ∧
        evaluate text (Stepping.Checked.mk ⟨current, stride⟩ false) limits =
          (.ok E, ⟨s, decide
            (UInt32.size ≤ current.toNat + E.faces.length * stride.toNat)⟩) := by
  refine ⟨⟨Generator.honest, Script.honest, Stepping.honest⟩, ?_,
    ⟨Generator.unfailing, Stepping.unfailing⟩, ?_, ?_⟩
  · intro σ _ honest reading limits source source' E hlimits h
    obtain ⟨-, he, hs⟩ := Reading.evaluate_eq_ok.1 h
    exact he.sound (hs.honest honest) hlimits
  · intro σ _ unfailing text source limits
    exact unfailing.evaluate (Reading.ofText text) source limits
  · intro text current stride limits hcurrent
    exact Stepping.exists_evaluate_checked hcurrent (Reading.ofText text) limits

/-- As many dice as a die shows, whose number of sides is negative; and a die that leaves no
word for the count. -/
theorem evaluate_log_sound_negative_sides :
    ∃ (reading : Reading) (E F : Evaluation) (first second : RollRecord),
      reading.tree = .dice (.dice (.literal 1) (.literal 4)) (.literal (-3)) ∧
      ({} : Limits).maxCount.toNat * ({} : Limits).maxSides.toNat ≤
        Int64.maxValue.toNatClampNeg ∧
      Source.Honest Words ∧
      reading.evaluate (Words.mk [0x80000000, 5, 6, 7, 8]) {} = (.ok E, ⟨[8]⟩) ∧
      E.log = [first, second] ∧ first.Sound {} ∧ second.Sound {} ∧
      second.rolls = [1, 1, 1] ∧ second.total.toInt = 3 ∧
      Source.Unfailing Stepping ∧
      (∃ G s, evaluate "2d(0-3)" (Stepping.mk 10 1) {} = (.ok G, s)) ∧
      evaluate "1d6" (Stepping.mk 0xffffffff 1) {} = (.ok F, ⟨0, 1⟩) ∧ F.faces = [3] ∧
      evaluate "1d6" (Stepping.Checked.mk ⟨0xffffffff, 1⟩ false) {} =
        (.ok F, ⟨⟨0, 1⟩, true⟩) := by
  have heval : (Reading.mk (.dice (.dice (.literal 1) (.literal 4)) (.literal (-3))) "").evaluate
      (Words.mk [0x80000000, 5, 6, 7, 8]) {} =
      (.ok { total := 3
             log := [⟨1, Sides.ofNat 4 (by decide) (by decide), [3]⟩,
               ⟨3, Sides.ofNat 1 (by decide) (by decide), [1, 1, 1]⟩]
             math := "" }, ⟨[8]⟩) := by rfl
  have hwrapped : evaluate "1d6" (Stepping.mk 0xffffffff 1) {} =
      (.ok { total := 3
             log := [⟨1, Sides.ofNat 6 (by decide) (by decide), [3]⟩]
             math := "1 d 6" }, ⟨0, 1⟩) := by decide +kernel
  have hlimits : ({} : Limits).maxCount.toNat * ({} : Limits).maxSides.toNat ≤
      Int64.maxValue.toNatClampNeg := by decide
  obtain ⟨⟨hgenerator, -, -⟩, hlog, ⟨-, hunfailing⟩, hvalue, hoverflow⟩ := evaluate_log_sound
  have hsound := hlog hgenerator hlimits heval
  obtain ⟨F, s, hF, hchecked⟩ := hoverflow "1d6" 0xffffffff 1 {} (by decide)
  rw [hwrapped] at hF
  cases hF
  exact ⟨_, _, _, _, _, rfl, hlimits, hgenerator, heval, rfl, hsound _ (by simp),
    hsound _ (by simp), rfl, rfl, hunfailing, hvalue hunfailing "2d(0-3)" (Stepping.mk 10 1) {},
    hwrapped, rfl, hchecked⟩

end DiceNotation
