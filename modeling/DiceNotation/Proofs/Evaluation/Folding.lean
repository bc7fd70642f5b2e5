import DiceNotation.Proofs.Evaluation.Settled
import DiceNotation.Proofs.Token.Insertion
import DiceNotation.Proofs.Token.RoundTrip

/-! Literals in place of subtrees. A subtree without rolls can be replaced by its value, and
where it is the count or the sides of a roll, by what the limits make of its value, since
clamping twice is clamping once. Neither the source nor the log can tell the difference,
wherever and however often this is done. -/

namespace DiceNotation

variable {limits : Limits} {e e' : Expr} {v : Int64}

/-! ### Clamping twice -/

namespace Limits

theorem toInt_clampCount (L : Limits) (count : Int64) :
    (L.clampCount count).toInt64.toInt = (L.clampCount count).toNat := by
  apply toInt_toInt64
  rw [UInt64.le_iff_toNat_le]
  have hclamp := L.toNat_clampCount count
  have hlt := count.toInt_lt
  have hmax : Int64.maxValue.toUInt64.toNat = 2 ^ 63 - 1 := rfl
  omega

theorem clampCount_clampCount (L : Limits) (count : Int64) :
    L.clampCount (L.clampCount count).toInt64 = L.clampCount count := by
  have htwice := L.toNat_clampCount (L.clampCount count).toInt64
  have hle := L.clampCount_le count
  rw [toInt_clampCount] at htwice
  rw [← UInt64.toNat_inj]
  omega

theorem clampSides_clampSides (L : Limits) (sides : Int64) :
    L.clampSides (L.clampSides sides).toUInt32.toUInt64.toInt64 = L.clampSides sides := by
  have htwice := L.toNat_clampSides (L.clampSides sides).toUInt32.toUInt64.toInt64
  have hle := L.clampSides_le sides
  have hpos := (L.clampSides sides).toNat_pos
  rw [Sides.toInt_toInt64] at htwice
  rw [← Sides.toNat_inj]
  omega

end Limits

/-! ### Folded trees -/

/-- What the value of an expression is used as. -/
inductive Role where
  | operand | count | sides
  deriving DecidableEq, Repr

/-- All that matters of a value in its role, as a literal. -/
def Role.clamp (limits : Limits) : Role → Int64 → Int64
  | operand, v => v
  | count, v => (limits.clampCount v).toInt64
  | sides, v => (limits.clampSides v).toUInt32.toUInt64.toInt64

theorem Role.clamp_operand (limits : Limits) : operand.clamp limits = id := rfl

theorem Role.clamp_clamp (limits : Limits) (role : Role) (v : Int64) :
    role.clamp limits (role.clamp limits v) = role.clamp limits v := by
  cases role with
  | operand => rfl
  | count => exact congrArg UInt64.toInt64 (limits.clampCount_clampCount v)
  | sides =>
    exact congrArg (fun sides => sides.toUInt32.toUInt64.toInt64) (limits.clampSides_clampSides v)

namespace Expr

/-- `Folded limits role e e'`: `e'` is `e` with literals for some of its subtrees without
rolls. They are the values of these subtrees, or what the limits make of the values. -/
inductive Folded (limits : Limits) : Role → Expr → Expr → Prop
  | value {role e v} (h : e.value? = some v) : Folded limits role e (.literal v)
  | clamped {role e v} (h : e.value? = some v) :
      Folded limits role e (.literal (role.clamp limits v))
  | binary {role l l' r r'} (op : Operator) (hl : Folded limits .operand l l')
      (hr : Folded limits .operand r r') : Folded limits role (.binary op l r) (.binary op l' r')
  | dice {role c c' s s'} (hc : Folded limits .count c c') (hs : Folded limits .sides s s') :
      Folded limits role (.dice c s) (.dice c' s')

theorem Folded.refl (e : Expr) (role : Role) : e.Folded limits role e := by
  induction e generalizing role with
  | literal x => exact .value rfl
  | binary op l r ihl ihr => exact .binary op (ihl _) (ihr _)
  | dice c s ihc ihs => exact .dice (ihc _) (ihs _)

/-- Subtrees without rolls are those that have a value of their own. -/
theorem exists_value_iff (e : Expr) : (∃ v, e.value? = some v) ↔ e.diceCount = 0 := by
  induction e with
  | literal x => exact ⟨fun _ => rfl, fun _ => ⟨x, rfl⟩⟩
  | binary op l r ihl ihr =>
    rw [diceCount, Nat.add_eq_zero_iff, ← ihl, ← ihr]
    constructor
    · rintro ⟨v, hv⟩
      obtain ⟨a, b, ha, hb, -⟩ := value?_binary_eq_some.1 hv
      exact ⟨⟨a, ha⟩, ⟨b, hb⟩⟩
    · rintro ⟨⟨a, ha⟩, ⟨b, hb⟩⟩
      exact ⟨op.apply a b, value?_binary_eq_some.2 ⟨a, b, ha, hb, rfl⟩⟩
  | dice c s ihc ihs =>
    constructor
    · rintro ⟨v, hv⟩
      cases hv
    · intro h
      cases h

/-! ### Evaluation of folded trees -/

section Eval
variable {σ : Type} [Source σ]

/-- A tree without rolls leaves the source and the log alone, and cannot fail. -/
theorem eval_of_value? (h : e.value? = some v) :
    e.eval limits = (pure v : Draw (Table σ) Int64) := by
  induction e generalizing v with
  | literal x =>
    cases h
    rfl
  | binary op l r ihl ihr =>
    obtain ⟨a, b, ha, hb, rfl⟩ := value?_binary_eq_some.1 h
    rw [eval, ihl ha, ihr hb, pure_bind, pure_bind]
  | dice c s ihc ihs => cases h

/-- Of its operands, a roll depends on what the limits make of them only. -/
theorem eval_dice (c s : Expr) :
    (dice c s).eval limits = (do
      let n ← Role.count.clamp limits <$> c.eval limits
      let m ← Role.sides.clamp limits <$> s.eval limits
      Table.roll (limits.clampCount n) (limits.clampSides m) : Draw (Table σ) Int64) := by
  simp only [eval, bind_map_left, Role.clamp, limits.clampCount_clampCount,
    limits.clampSides_clampSides]

/-- What folding changes, the role of the tree makes good. -/
theorem Folded.eval {role : Role} (h : e.Folded limits role e') :
    (role.clamp limits <$> e'.eval limits : Draw (Table σ) Int64) =
      role.clamp limits <$> e.eval limits := by
  -- Two trees may differ in value here, as operands of a roll, but not once they are clamped.
  induction h with
  | value h => rw [eval_of_value? h, Expr.eval]
  | @clamped role e v h =>
    rw [eval_of_value? h, Expr.eval, map_pure, map_pure, role.clamp_clamp]
  | binary op hl hr ihl ihr =>
    rw [Role.clamp_operand, id_map, id_map] at ihl ihr
    rw [Expr.eval, Expr.eval, ihl, ihr]
  | dice hc hs ihc ihs => rw [eval_dice, eval_dice, ihc, ihs]

theorem Folded.eval_eq (h : e.Folded limits .operand e') :
    e'.eval limits = (e.eval limits : Draw (Table σ) Int64) := by
  have heval := h.eval (σ := σ)
  rwa [Role.clamp_operand, id_map, id_map] at heval

end Eval

end Expr

/-! ### Texts -/

section Texts
variable {σ : Type} [Source σ] {s t : String}

/-- What a text comes to on a source, whatever tokens it shows. -/
def rolls (text : String) (source : σ) (limits : Limits) :
    Except Fault (Int64 × List RollRecord) × σ :=
  let (outcome, source) := evaluate text source limits
  (outcome.map fun E => (E.total, E.log), source)

theorem rolls_congr (h : (Reading.ofText s).tree.eval limits =
    ((Reading.ofText t).tree.eval limits : Draw (Table σ) Int64)) (source : σ) :
    rolls s source limits = rolls t source limits := by
  rcases hs : (Reading.ofText s).tree.eval limits ({ source } : Table σ) with ⟨result, table⟩
  have ht := hs
  rw [h] at ht
  rw [rolls, rolls, evaluate, evaluate, Reading.evaluate_of_eval hs, Reading.evaluate_of_eval ht]
  cases result <;> rfl

end Texts

/-- Two literals around a `d` are read as a roll. -/
theorem Reading.tree_ofText_dice {m n : String} {x y : Int64}
    (hm : Token.scan m = [.integer x]) (hn : Token.scan n = [.integer y]) :
    (ofText (m ++ "d" ++ n)).tree = .dice (.literal x) (.literal y) := by
  have hmark : Token.Apart m.toList "d".toList := by simp [Token.Apart]
  have hrest : Token.Apart (m ++ "d").toList n.toList := by simp [Token.Apart]
  have hd : Token.scan "d" = [.dice] := rfl
  have hscan : Token.scan (m ++ "d" ++ n) = [.integer x, .dice, .integer y] := by
    rw [Token.scan_append hrest, Token.scan_append hmark, hm, hd, hn]
    rfl
  have hlen : [Token.integer x, .dice, .integer y].length ≤ Token.maxTokens := by
    show 3 ≤ 1024
    decide
  rw [ofText, Token.tokenize_of_scan (by simp [hscan]) (by rwa [hscan]), hscan]
  rfl

/-- A number is written as a run of digits. -/
theorem Token.scan_toString (n : Nat) : ∃ x : Int64, scan (toString n) = [.integer x] ∧
    x.toInt = min (n : Int) Int64.maxValue.toInt := by
  have hdigits : (toString n).toList = Nat.toDigits 10 n := Nat.toList_repr
  have hne : toString n ≠ "" := by
    intro hempty
    rw [hempty] at hdigits
    exact Nat.toDigits_ne_nil hdigits.symm
  have hall : ∀ c ∈ (toString n).toList, c.isDigit = true := by
    rw [hdigits]
    exact fun c hc => Nat.isDigit_of_mem_toDigits (by decide) (by decide) hc
  have hscan := scan_digits_toInt hne hall
  rwa [hdigits, Nat.ofDigitChars_ten_toDigits] at hscan

/-- The count of a literal, which may have saturated. -/
theorem Limits.toNat_clampCount_literal (L : Limits) {x : Int64} {n : Nat}
    (hx : x.toInt = min (n : Int) Int64.maxValue.toInt) :
    (L.clampCount x).toNat = min (min n L.maxCount.toNat) Token.maxLiteral := by
  have hclamp := L.toNat_clampCount x
  have hmax : Token.maxLiteral = 9223372036854775807 := rfl
  rw [hx, Int64.toInt_maxValue] at hclamp
  omega

/-- Every number of sides is less than the greatest literal. -/
theorem Limits.toNat_clampSides_literal (L : Limits) {y : Int64} {n : Nat}
    (hy : y.toInt = min (n : Int) Int64.maxValue.toInt) :
    (L.clampSides y).toNat = min (max n 1) L.maxSides.toNat := by
  have hclamp := L.toNat_clampSides y
  have hlt := L.maxSides.toNat_lt
  rw [hy, Int64.toInt_maxValue] at hclamp
  rw [UInt32.size] at hlt
  omega

section Texts
variable {σ : Type} [Source σ] (source : σ) (limits : Limits)

/-- The literals saturate in front of the clamps, which comes to the same. -/
theorem rolls_digits {m n : String} (hm : m ≠ "") (hmd : ∀ c ∈ m.toList, c.isDigit = true)
    (hn : n ≠ "") (hnd : ∀ c ∈ n.toList, c.isDigit = true) :
    rolls (m ++ "d" ++ n) source limits =
      rolls (toString (min (Nat.ofDigitChars 10 m.toList 0) limits.maxCount.toNat) ++ "d" ++
        toString (min (max (Nat.ofDigitChars 10 n.toList 0) 1) limits.maxSides.toNat))
        source limits := by
  obtain ⟨x, hx, hxv⟩ := Token.scan_digits_toInt hm hmd
  obtain ⟨y, hy, hyv⟩ := Token.scan_digits_toInt hn hnd
  obtain ⟨x', hx', hxv'⟩ :=
    Token.scan_toString (min (Nat.ofDigitChars 10 m.toList 0) limits.maxCount.toNat)
  obtain ⟨y', hy', hyv'⟩ :=
    Token.scan_toString (min (max (Nat.ofDigitChars 10 n.toList 0) 1) limits.maxSides.toNat)
  have hcount : limits.clampCount x = limits.clampCount x' := by
    rw [← UInt64.toNat_inj, limits.toNat_clampCount_literal hxv,
      limits.toNat_clampCount_literal hxv', Nat.min_assoc _ _ limits.maxCount.toNat, Nat.min_self]
  have hsides : limits.clampSides y = limits.clampSides y' := by
    have hone (k : Nat) : 1 ≤ min (max k 1) limits.maxSides.toNat :=
      Nat.le_min.2 ⟨Nat.le_max_right k 1, limits.maxSides.toNat_pos⟩
    rw [← Sides.toNat_inj, limits.toNat_clampSides_literal hyv,
      limits.toNat_clampSides_literal hyv', Nat.max_eq_left (hone _),
      Nat.min_assoc _ _ limits.maxSides.toNat, Nat.min_self]
  apply rolls_congr
  rw [Reading.tree_ofText_dice hx hy, Reading.tree_ofText_dice hx' hy']
  simp only [Expr.eval, pure_bind, hcount, hsides]

/-- Fewer dice than none are none. -/
theorem rolls_negative_count : rolls "(0-5)d6" source limits = rolls "0d6" source limits := by
  have htree : (Reading.ofText "(0-5)d6").tree =
      .dice (.binary .sub (.literal 0) (.literal 5)) (.literal 6) := by decide +kernel
  have htree' : (Reading.ofText "0d6").tree = .dice (.literal 0) (.literal 6) := by
    decide +kernel
  have hzero : limits.clampCount (-5) = 0 := by
    have hclamp := limits.toNat_clampCount (-5)
    have hvalue : (-5 : Int64).toInt = -5 := rfl
    rw [← UInt64.toNat_inj, UInt64.toNat_zero]
    omega
  have hfolded : Expr.Folded limits .operand
      (.dice (.binary .sub (.literal 0) (.literal 5)) (.literal 6))
      (.dice (.literal (Role.count.clamp limits (-5))) (.literal 6)) :=
    .dice (.clamped rfl) (.refl _ _)
  rw [Role.clamp, hzero] at hfolded
  apply rolls_congr
  rw [htree, htree']
  exact hfolded.eval_eq.symm

end Texts

/-! ### Folding an expression -/

theorem Reading.evaluate_of_eval_eq {σ : Type} [Source σ]
    (h : e'.eval limits = (e.eval limits : Draw (Table σ) Int64)) (math : String) (source : σ) :
    (Reading.mk e' math).evaluate source limits = (Reading.mk e math).evaluate source limits := by
  simp only [Reading.evaluate, Session.evaluate, Session.observe_start, h]

/-- A tree with literals for any of its subtrees without rolls, clamped beforehand where
they are operands of a roll, evaluates as the tree does on every source. So a negative count
is no dice, and a roll of two numbers that are written out is the roll of these numbers
clamped. -/
theorem evaluate_folded :
    (∀ e : Expr, (∃ v, e.value? = some v) ↔ e.diceCount = 0) ∧
    ∀ {σ : Type} [Source σ] (source : σ) (limits : Limits),
      (∀ {e e' : Expr}, e.Folded limits .operand e' → ∀ math : String,
        (Reading.mk e' math).evaluate source limits =
          (Reading.mk e math).evaluate source limits) ∧
      rolls "(0-5)d6" source limits = rolls "0d6" source limits ∧
      ∀ m n : String, m ≠ "" → (∀ c ∈ m.toList, c.isDigit = true) →
        n ≠ "" → (∀ c ∈ n.toList, c.isDigit = true) →
          rolls (m ++ "d" ++ n) source limits =
            rolls (toString (min (Nat.ofDigitChars 10 m.toList 0) limits.maxCount.toNat) ++ "d" ++
              toString (min (max (Nat.ofDigitChars 10 n.toList 0) 1) limits.maxSides.toNat))
              source limits := by
  refine ⟨Expr.exists_value_iff, ?_⟩
  intro σ _ source limits
  refine ⟨fun h math => ?_, rolls_negative_count source limits, ?_⟩
  · exact Reading.evaluate_of_eval_eq h.eval_eq math source
  · intro m n hm hmd hn hnd
    exact rolls_digits source limits hm hmd hn hnd

/-- More sides than the limit by a product, for as many dice as a die shows, beside a quotient
by zero; and a roll of numbers with leading zeros and past the greatest literal. -/
theorem evaluate_folded_nested_dice :
    ∃ e e' : Expr, ∃ E : Evaluation,
      e = .binary .add (.dice (.dice (.literal 1) (.literal 4))
        (.binary .mul (.literal 700) (.literal 2))) (.binary .div (.literal 7) (.literal 0)) ∧
      e' = .binary .add (.dice (.dice (.literal 1) (.literal 4)) (.literal 1000))
        (.literal 0) ∧
      e.Folded {} .operand e' ∧
      (Reading.mk e "").evaluate (Script.once [2, 900, 1000, 7]) {} = (.ok E, Script.once [7]) ∧
      (Reading.mk e' "").evaluate (Script.once [2, 900, 1000, 7]) {} = (.ok E, Script.once [7]) ∧
      E.total = 1900 ∧
      rolls ("007" ++ "d" ++ "99999999999999999999") (Script.once [1, 2]) {} =
        rolls (toString (min (Nat.ofDigitChars 10 "007".toList 0) 100) ++ "d" ++
          toString (min (max (Nat.ofDigitChars 10 "99999999999999999999".toList 0) 1) 1000))
          (Script.once [1, 2]) {} := by
  have hfolded : Expr.Folded {} .operand
      (.binary .add (.dice (.dice (.literal 1) (.literal 4))
        (.binary .mul (.literal 700) (.literal 2))) (.binary .div (.literal 7) (.literal 0)))
      (.binary .add (.dice (.dice (.literal 1) (.literal 4))
        (.literal (Role.sides.clamp {} 1400))) (.literal 0)) :=
    .binary .add (.dice (.refl _ _) (.clamped rfl)) (.value rfl)
  obtain ⟨-, hevaluate⟩ := evaluate_folded
  obtain ⟨hsame, -, -⟩ := hevaluate (Script.once [2, 900, 1000, 7]) {}
  obtain ⟨-, -, hdigits⟩ := hevaluate (Script.once [1, 2]) {}
  have h := hsame hfolded ""
  exact ⟨_, _, _, rfl, rfl, hfolded, rfl, h.trans rfl, rfl,
    hdigits "007" "99999999999999999999" (by simp) (by simp) (by simp) (by simp)⟩

end DiceNotation
