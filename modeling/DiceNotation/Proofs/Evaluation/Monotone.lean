import DiceNotation.Proofs.Evaluation.Certain
import DiceNotation.Proofs.Evaluation.Settled
import DiceNotation.Proofs.Operator.Exact

/-! Larger faces. An expression of sums, products and quotients by a literal, in which no
literal has a sign and no roll depends on another, makes the same rolls whatever the dice
show, and none of its operations falls as its operands grow. So its total is least where all
dice show one, and greatest where each shows its number of sides. -/

namespace DiceNotation

open RollRecord (faces)

/-! ### Lists in step -/

section Lists
variable {α β : Type} {R : α → β → Prop}

theorem forall₂_of_append {xs ys : List α} {xs' ys' : List β}
    (h : List.Forall₂ R (xs ++ ys) (xs' ++ ys')) (hlen : xs.length = xs'.length) :
    List.Forall₂ R xs xs' ∧ List.Forall₂ R ys ys' := by
  have htake := List.forall₂_take_append _ _ _ h
  have hdrop := List.forall₂_drop_append _ _ _ h
  rw [List.take_left' hlen] at htake
  rw [List.drop_left' hlen] at hdrop
  exact ⟨htake, hdrop⟩

theorem forall₂_of_map_eq {γ : Type} {f : α → γ} {g : β → γ} {xs : List α} {ys : List β}
    (h : xs.map f = ys.map g) (hR : ∀ x ∈ xs, ∀ y ∈ ys, f x = g y → R x y) :
    List.Forall₂ R xs ys := by
  have hfg : List.Forall₂ (· = ·) (xs.map f) (ys.map g) := by
    rw [List.forall₂_eq_eq_eq]
    exact h
  rw [List.forall₂_map_left_iff, List.forall₂_map_right_iff] at hfg
  refine List.forall₂_iff_zip.2 ⟨hfg.length_eq, fun hmem => ?_⟩
  obtain ⟨hx, hy⟩ := List.of_mem_zip hmem
  exact hR _ hx _ hy (List.forall₂_zip hfg hmem)

theorem forall₂_replicate {x : α} {ys : List β} (h : ∀ y ∈ ys, R x y) :
    List.Forall₂ R (List.replicate ys.length x) ys := by
  induction ys with
  | nil => exact .nil
  | cons y ys ih =>
    obtain ⟨hy, hys⟩ := List.forall_mem_cons.1 h
    exact .cons hy (ih hys)

end Lists

/-! ### Records in step -/

/-- The same roll, none of whose dice shows less. -/
structure RollRecord.Below (low high : RollRecord) : Prop where
  request_eq : low.request = high.request
  rolls_le : List.Forall₂ (· ≤ ·) low.rolls high.rolls

/-- The one value is not negative, and the other not less. -/
def Rises (low high : Int64) : Prop := 0 ≤ low.toInt ∧ low.toInt ≤ high.toInt

variable {limits : Limits} {e : Expr} {log log' : List RollRecord} {v v' : Int64}

theorem exactTotal_mono {low high : List UInt32} (h : List.Forall₂ (· ≤ ·) low high) :
    exactTotal low ≤ exactTotal high := by
  apply List.Forall₂.sum_le_sum
  rw [List.forall₂_map_left_iff, List.forall₂_map_right_iff]
  exact h.imp fun _ _ => UInt32.le_iff_toNat_le.1

namespace RollRecord

variable {low high : RollRecord}

theorem request_inj :
    low.request = high.request ↔ low.count = high.count ∧ low.sides = high.sides := by
  rw [request, request, Request.batch.injEq, UInt64.toNat_inj]

theorem Below.total_rises (h : low.Below high) (hlow : low.Sound limits)
    (hhigh : high.Sound limits) : Rises low.total high.total := by
  have hle := exactTotal_mono h.rolls_le
  rw [Rises, hlow.total_eq, hhigh.total_eq]
  omega

/-- No roll shows less than one on each die. -/
theorem Uniform.below (h : low.Uniform fun _ => 1) (hrequest : low.request = high.request)
    (hh : high.Honest) : low.Below high := by
  obtain ⟨hcount, -⟩ := request_inj.1 hrequest
  refine ⟨hrequest, ?_⟩
  rw [h, hcount, ← hh.1]
  exact forall₂_replicate fun face hface => (hh.2 face hface).1

/-- No roll shows more than the number of sides on each die. -/
theorem Uniform.above (h : high.Uniform Sides.toUInt32) (hrequest : low.request = high.request)
    (hh : low.Honest) : low.Below high := by
  obtain ⟨hcount, hsides⟩ := request_inj.1 hrequest
  refine ⟨hrequest, List.Forall₂.flip ?_⟩
  rw [h, ← hcount, ← hsides, ← hh.1]
  exact forall₂_replicate fun face hface => (hh.2 face hface).2

/-- The same rolls on two scripts, one of which shows no less face by face. -/
theorem below_of_faces {rest rest' : List UInt32} (hrequests : log.map request = log'.map request)
    (hh : ∀ record ∈ log, record.Honest) (hh' : ∀ record ∈ log', record.Honest)
    (h : List.Forall₂ (· ≤ ·) (faces log ++ rest) (faces log' ++ rest')) :
    List.Forall₂ Below log log' := by
  induction log generalizing log' with
  | nil =>
    rw [List.map_eq_nil_iff.1 hrequests.symm]
    exact .nil
  | cons record log ih =>
    cases log' with
    | nil => cases hrequests
    | cons record' log' =>
      obtain ⟨hrequest, hrequests⟩ := List.cons.inj hrequests
      obtain ⟨honest, hh⟩ := List.forall_mem_cons.1 hh
      obtain ⟨honest', hh'⟩ := List.forall_mem_cons.1 hh'
      have hlen : record.rolls.length = record'.rolls.length := by
        rw [honest.1, honest'.1, (request_inj.1 hrequest).1]
      rw [faces_cons, faces_cons, List.append_assoc, List.append_assoc] at h
      obtain ⟨hrolls, hrest⟩ := forall₂_of_append h hlen
      exact .cons ⟨hrequest, hrolls⟩ (ih hrequests hh hh' hrest)

end RollRecord

/-! ### Operations -/

theorem saturate_nonneg {z : Int} (h : 0 ≤ z) : 0 ≤ saturate z :=
  saturate_mono (y := 0) h

theorem Operator.apply_rises {op : Operator} {a a' b b' : Int64}
    (h : 0 ≤ op.exact a.toInt b.toInt)
    (hle : op.exact a.toInt b.toInt ≤ op.exact a'.toInt b'.toInt) :
    Rises (op.apply a b) (op.apply a' b') := by
  rw [Rises, toInt_apply, toInt_apply]
  exact ⟨saturate_nonneg h, saturate_mono hle⟩

namespace Rises

variable {a a' b b' : Int64}

theorem binary {op : Operator} (ha : Rises a a') (hb : Rises b b')
    (hop : op = .add ∨ op = .mul) : Rises (op.apply a b) (op.apply a' b') := by
  rcases hop with rfl | rfl
  · exact Operator.apply_rises (Int.add_nonneg ha.1 hb.1) (Int.add_le_add ha.2 hb.2)
  · exact Operator.apply_rises (Int.mul_nonneg ha.1 hb.1)
      (Int.mul_le_mul ha.2 hb.2 hb.1 (Int.le_trans ha.1 ha.2))

theorem div (ha : Rises a a') (hb : 0 ≤ b.toInt) :
    Rises (Operator.div.apply a b) (Operator.div.apply a' b) := by
  have ha' : 0 ≤ a'.toInt := Int.le_trans ha.1 ha.2
  apply Operator.apply_rises
  · rw [Operator.exact]
    split
    · exact Int.le_refl 0
    · exact Int.tdiv_nonneg ha.1 hb
  · rw [Operator.exact, Operator.exact]
    split
    · exact Int.le_refl 0
    · next hne =>
      rw [Int.tdiv_eq_ediv_of_nonneg ha.1, Int.tdiv_eq_ediv_of_nonneg ha']
      exact Int.ediv_le_ediv (by omega) ha.2

end Rises

namespace Expr

/-! ### Expressions that grow -/

/-- Expressions without differences, signed literals, and divisors other than literals, in
which no roll is made for an operand of another. -/
inductive Growing : Expr → Prop
  | literal {x : Int64} (h : 0 ≤ x) : Growing (.literal x)
  | binary {op : Operator} {l r : Expr} (hop : op = .add ∨ op = .mul) (hl : Growing l)
      (hr : Growing r) : Growing (.binary op l r)
  | div {l : Expr} {x : Int64} (hl : Growing l) (h : 0 ≤ x) :
      Growing (.binary .div l (.literal x))
  | dice {c s : Expr} (hc : c.diceCount = 0) (hs : s.diceCount = 0) : Growing (.dice c s)

/-- Without rolls there is one value. -/
theorem Explained.eq_of_diceCount_eq_zero (h : e.Explained limits log v)
    (h' : e.Explained limits log' v') (he : e.diceCount = 0) :
    log = [] ∧ log' = [] ∧ v = v' := by
  obtain rfl := List.eq_nil_of_length_eq_zero (h.length_eq.trans he)
  obtain rfl := List.eq_nil_of_length_eq_zero (h'.length_eq.trans he)
  obtain ⟨-, rfl⟩ := h.eq_of_forced (by simp) (by simp) h' (by simp)
  exact ⟨rfl, rfl, rfl⟩

namespace Growing

theorem requests_eq (hg : e.Growing) (h : e.Explained limits log v)
    (h' : e.Explained limits log' v') :
    log.map RollRecord.request = log'.map RollRecord.request := by
  induction hg generalizing log log' v v' with
  | literal hx =>
    cases h
    cases h'
    rfl
  | binary hop hl hr ihl ihr =>
    cases h with
    | binary _ hl hr =>
      cases h' with
      | binary _ hl' hr' =>
        rw [List.map_append, List.map_append, ihl hl hl', ihr hr hr']
  | div hl hx ihl =>
    cases h with
    | binary _ hl hr =>
      cases h' with
      | binary _ hl' hr' =>
        cases hr
        cases hr'
        rw [List.map_append, List.map_append, ihl hl hl']
  | dice hcd hsd =>
    cases h with
    | dice hc hs hcount hsides =>
      cases h' with
      | dice hc' hs' hcount' hsides' =>
        obtain ⟨rfl, rfl, rfl⟩ := hc.eq_of_diceCount_eq_zero hc' hcd
        obtain ⟨rfl, rfl, rfl⟩ := hs.eq_of_diceCount_eq_zero hs' hsd
        simp only [List.nil_append, List.map_singleton, List.cons.injEq, and_true]
        exact RollRecord.request_inj.2 ⟨hcount.trans hcount'.symm, hsides.trans hsides'.symm⟩

/-- Record by record, larger faces make for a larger total of every subtree. -/
theorem rises (hg : e.Growing) (h : e.Explained limits log v) (h' : e.Explained limits log' v')
    (hlog : List.Forall₂ RollRecord.Below log log') (hs : ∀ record ∈ log, record.Sound limits)
    (hs' : ∀ record ∈ log', record.Sound limits) : Rises v v' := by
  induction hg generalizing log log' v v' with
  | literal hx =>
    cases h
    cases h'
    exact ⟨Int64.le_iff_toInt_le.1 hx, Int.le_refl _⟩
  | binary hop hl hr ihl ihr =>
    cases h with
    | binary _ hl hr =>
      cases h' with
      | binary _ hl' hr' =>
        obtain ⟨hleft, hright⟩ := forall₂_of_append hlog (hl.length_eq.trans hl'.length_eq.symm)
        obtain ⟨hsl, hsr⟩ := List.forall_mem_append.1 hs
        obtain ⟨hsl', hsr'⟩ := List.forall_mem_append.1 hs'
        exact (ihl hl hl' hleft hsl hsl').binary (ihr hr hr' hright hsr hsr') hop
  | div hl hx ihl =>
    cases h with
    | binary _ hl hr =>
      cases h' with
      | binary _ hl' hr' =>
        cases hr
        cases hr'
        simp only [List.append_nil] at hlog hs hs'
        exact (ihl hl hl' hlog hs hs').div (Int64.le_iff_toInt_le.1 hx)
  | dice hcd hsd =>
    cases h with
    | dice hc hsides =>
      cases h' with
      | dice hc' hsides' =>
        obtain ⟨rfl, rfl, rfl⟩ := hc.eq_of_diceCount_eq_zero hc' hcd
        obtain ⟨rfl, rfl, rfl⟩ := hsides.eq_of_diceCount_eq_zero hsides' hsd
        cases hlog with
        | cons hrecord hrest =>
          exact hrecord.total_rises (hs _ List.mem_cons_self) (hs' _ List.mem_cons_self)

end Growing

end Expr

/-! ### Evaluations that grow -/

/-- The faces of dice that all show one. -/
theorem RollRecord.faces_of_uniform_one (h : ∀ record ∈ log, record.Uniform fun _ => 1) :
    faces log = List.replicate (faces log).length 1 := by
  refine List.eq_replicate_of_mem fun face hface => ?_
  obtain ⟨record, hrecord, hface⟩ := List.mem_flatMap.1 hface
  rw [h record hrecord] at hface
  exact List.eq_of_mem_replicate hface

namespace Expr.Growing

variable {reading : Reading} (hg : reading.tree.Growing)
  (hlimits : limits.maxCount.toNat * limits.maxSides.toNat ≤ Int64.maxValue.toNatClampNeg)

include hg hlimits

theorem rises_of_honest (he : reading.tree.Explained limits log v)
    (he' : reading.tree.Explained limits log' v') (hh : ∀ record ∈ log, record.Honest)
    (hh' : ∀ record ∈ log', record.Honest) (hbelow : List.Forall₂ RollRecord.Below log log') :
    Rises v v' := hg.rises he he' hbelow (he.sound hh hlimits) (he'.sound hh' hlimits)

theorem evaluate_once_rises {low high : List UInt32} {s t : Script} {E F : Evaluation}
    (hle : List.Forall₂ (· ≤ ·) low high)
    (hE : reading.evaluate (Script.once low) limits = (.ok E, s))
    (hF : reading.evaluate (Script.once high) limits = (.ok F, t)) : Rises E.total F.total := by
  obtain ⟨-, he, hs⟩ := Reading.evaluate_eq_ok.1 hE
  obtain ⟨-, he', hs'⟩ := Reading.evaluate_eq_ok.1 hF
  have hh := hs.honest Script.honest
  have hh' := hs'.honest Script.honest
  obtain ⟨rest, -, rfl⟩ := Script.of_supplies_once hs rfl
  obtain ⟨rest', -, rfl⟩ := Script.of_supplies_once hs' rfl
  -- The scripts are cut alike, since the rolls are the same.
  exact hg.rises_of_honest hlimits he he' hh hh'
    (RollRecord.below_of_faces (hg.requests_eq he he') hh hh' hle)

/-- Ones are below all that an honest source can show. -/
theorem exists_least : ∃ least : Evaluation,
    (∀ n, reading.evaluate
      (Script.once (List.replicate (least.faces.length + n) 1)) limits =
        (.ok least, Script.once (List.replicate n 1))) ∧
    ∀ {σ : Type} [Source σ], Source.Honest σ → ∀ {source source' : σ} {E : Evaluation},
      reading.evaluate source limits = (.ok E, source') → least.total ≤ E.total := by
  obtain ⟨log, v, he, hu⟩ := reading.tree.exists_explained_uniform limits fun _ => 1
  have hh : ∀ record ∈ log, record.Honest :=
    fun record hrecord => (hu record hrecord).honest record.sides.shows_one
  refine ⟨{ total := v, log, math := reading.math }, fun n => ?_, ?_⟩
  · have hsupplies := Script.supplies_once hh (List.replicate n 1)
    rw [RollRecord.faces_of_uniform_one hu, List.replicate_append_replicate] at hsupplies
    exact Reading.evaluate_eq_ok.2 ⟨rfl, he, hsupplies⟩
  · intro σ _ honest source source' E hE
    obtain ⟨-, heE, hs⟩ := Reading.evaluate_eq_ok.1 hE
    have hhE := hs.honest honest
    have hbelow : List.Forall₂ RollRecord.Below log E.log :=
      forall₂_of_map_eq (hg.requests_eq he heE) fun low hlow high hhigh hrequest =>
        (hu low hlow).below hrequest (hhE high hhigh)
    exact Int64.le_iff_toInt_le.2 (hg.rises_of_honest hlimits he heE hh hhE hbelow).2

/-- The numbers of sides are above all that an honest source can show. -/
theorem exists_greatest : ∃ greatest : Evaluation,
    (∀ record ∈ greatest.log, record.Uniform Sides.toUInt32) ∧
    reading.evaluate (Script.once greatest.faces) limits = (.ok greatest, Script.once []) ∧
    ∀ {σ : Type} [Source σ], Source.Honest σ → ∀ {source source' : σ} {E : Evaluation},
      reading.evaluate source limits = (.ok E, source') → E.total ≤ greatest.total := by
  obtain ⟨log, v, he, hu⟩ := reading.tree.exists_explained_uniform limits Sides.toUInt32
  have hh : ∀ record ∈ log, record.Honest :=
    fun record hrecord => (hu record hrecord).honest record.sides.shows_sides
  refine ⟨{ total := v, log, math := reading.math }, hu, ?_, ?_⟩
  · have hsupplies := Script.supplies_once hh []
    rw [List.append_nil] at hsupplies
    exact Reading.evaluate_eq_ok.2 ⟨rfl, he, hsupplies⟩
  · intro σ _ honest source source' E hE
    obtain ⟨-, heE, hs⟩ := Reading.evaluate_eq_ok.1 hE
    have hhE := hs.honest honest
    have hbelow : List.Forall₂ RollRecord.Below E.log log :=
      forall₂_of_map_eq (hg.requests_eq heE he) fun low hlow high hhigh hrequest =>
        (hu high hhigh).above hrequest (hhE low hlow)
    exact Int64.le_iff_toInt_le.2 (hg.rises_of_honest hlimits heE he hhE hh hbelow).2

end Expr.Growing

/-- An expression that grows makes the same rolls in all its evaluations. Of two scripts, the
one that shows more face by face does not have the lower total, and no total is negative. A
script of ones has the least total of all evaluations on honest sources, and the script on
which each die shows its number of sides has the greatest. -/
theorem evaluate_mono {reading : Reading} {limits : Limits} (hgrowing : reading.tree.Growing)
    (hlimits : limits.maxCount.toNat * limits.maxSides.toNat ≤ Int64.maxValue.toNatClampNeg) :
    (∀ {low high : List UInt32} {s t : Script} {E F : Evaluation},
      List.Forall₂ (· ≤ ·) low high →
      reading.evaluate (Script.once low) limits = (.ok E, s) →
      reading.evaluate (Script.once high) limits = (.ok F, t) →
        E.total ≤ F.total ∧ E.log.map RollRecord.request = F.log.map RollRecord.request ∧
          0 ≤ E.total ∧ 0 ≤ F.total) ∧
    ∃ least greatest : Evaluation,
      (∀ n, reading.evaluate
        (Script.once (List.replicate (least.faces.length + n) 1)) limits =
          (.ok least, Script.once (List.replicate n 1))) ∧
      (∀ record ∈ greatest.log,
        record.rolls = List.replicate record.count.toNat record.sides.toUInt32) ∧
      reading.evaluate (Script.once greatest.faces) limits = (.ok greatest, Script.once []) ∧
      ∀ {σ : Type} [Source σ], Source.Honest σ → ∀ {source source' : σ} {E : Evaluation},
        reading.evaluate source limits = (.ok E, source') →
          least.total ≤ E.total ∧ E.total ≤ greatest.total := by
  constructor
  · intro low high s t E F hle hE hF
    obtain ⟨-, he, -⟩ := Reading.evaluate_eq_ok.1 hE
    obtain ⟨-, he', -⟩ := Reading.evaluate_eq_ok.1 hF
    obtain ⟨hpos, htotal⟩ := hgrowing.evaluate_once_rises hlimits hle hE hF
    simp only [Int64.le_iff_toInt_le]
    exact ⟨htotal, hgrowing.requests_eq he he', hpos, Int.le_trans hpos htotal⟩
  · obtain ⟨least, hones, hleast⟩ := hgrowing.exists_least hlimits
    obtain ⟨greatest, hshown, hsides, hgreatest⟩ := hgrowing.exists_greatest hlimits
    refine ⟨least, greatest, hones, hshown, hsides, ?_⟩
    intro σ _ honest source source' E hE
    exact ⟨hleast honest hE, hgreatest honest hE⟩

/-- A product that stops at the greatest word on the larger faces, halved. -/
theorem evaluate_mono_saturated :
    let roll : Expr := .dice (.literal 2) (.binary .sub (.literal 10) (.literal 4))
    let product : Expr := .binary .mul (.literal 0x3000000000000000) roll
    let reading : Reading := { tree := .binary .div product (.literal 2), math := "" }
    ∃ E F least greatest : Evaluation,
      reading.tree.Growing ∧
      ({} : Limits).maxCount.toNat * ({} : Limits).maxSides.toNat ≤
        Int64.maxValue.toNatClampNeg ∧
      List.Forall₂ (· ≤ ·) [1, 1] ([1, 5] : List UInt32) ∧
      reading.evaluate (Script.once [1, 1]) {} = (.ok E, Script.once []) ∧
      reading.evaluate (Script.once [1, 5]) {} = (.ok F, Script.once []) ∧
      E.total = 0x3000000000000000 ∧ F.total = 0x3fffffffffffffff ∧ E.total ≤ F.total ∧
      E.log.map RollRecord.request = F.log.map RollRecord.request ∧
      Source.Honest Script ∧ least.total ≤ E.total ∧ F.total ≤ greatest.total := by
  intro roll product reading
  have hgrowing : reading.tree.Growing :=
    .div (.binary (.inr rfl) (.literal (by decide)) (.dice rfl rfl)) (by decide)
  have hlimits : ({} : Limits).maxCount.toNat * ({} : Limits).maxSides.toNat ≤
      Int64.maxValue.toNatClampNeg := by decide
  have hle : List.Forall₂ (· ≤ ·) [1, 1] ([1, 5] : List UInt32) := by decide
  have hE : reading.evaluate (Script.once [1, 1]) {} =
      (.ok { total := 0x3000000000000000
             log := [⟨2, Sides.ofNat 6 (by decide) (by decide), [1, 1]⟩]
             math := "" }, Script.once []) := by rfl
  have hF : reading.evaluate (Script.once [1, 5]) {} =
      (.ok { total := 0x3fffffffffffffff
             log := [⟨2, Sides.ofNat 6 (by decide) (by decide), [1, 5]⟩]
             math := "" }, Script.once []) := by rfl
  obtain ⟨hmono, least, greatest, -, -, -, hbetween⟩ := evaluate_mono hgrowing hlimits
  obtain ⟨htotal, hrequests, -, -⟩ := hmono hle hE hF
  exact ⟨_, _, least, greatest, hgrowing, hlimits, hle, hE, hF, rfl, rfl, htotal, hrequests,
    Script.honest, (hbetween Script.honest hE).1, (hbetween Script.honest hF).2⟩

end DiceNotation
