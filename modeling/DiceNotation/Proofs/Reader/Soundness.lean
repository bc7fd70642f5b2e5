import DiceNotation.Proofs.Reader.Grammar
import DiceNotation.Proofs.Reader.Steps

/-! What has been read is always a written expression with some tokens left out. The
invariant follows the reader: the groups that are open, each with the operations
pending in it, are the beginning of a written word, and a step appends to that word
its token, after the zero and the closing brackets that were left out before it. -/

namespace DiceNotation.Expr

open Token (Abridged nesting opened)

/-! ### Pending words -/

/-- A pending operation: its left operand and its operator. -/
inductive PendingWritten (level : Level) : Option (Expr × Operator) → List Token → Prop
  | none : PendingWritten level none []
  | some {u l t op} (hl : Written level u l) (ht : t.operator? = some op)
      (hop : op.level = level) : PendingWritten level (some (l, op)) (u ++ [t])

/-- A count that waits for its sides; it may be a `1` left out. -/
inductive CountWritten : Option Expr → List Token → Prop
  | none : CountWritten none []
  | given {u c} (hc : Written .factor u c) : CountWritten (some c) (u ++ [.dice])
  | implied : CountWritten (some (.literal 1)) [.dice]

inductive GroupWritten (g : Group) : List Token → Prop
  | mk {us up uc} (hs : PendingWritten .sum g.sum us) (hp : PendingWritten .product g.product up)
      (hc : CountWritten g.count uc) : GroupWritten g (us ++ (up ++ uc))

/-- The groups around the innermost one, from the inside out, each up to the bracket
that opens the next. -/
inductive OuterWritten : List Group → List Token → Prop
  | nil : OuterWritten [] []
  | cons {g outer u v} (ho : OuterWritten outer v) (hg : GroupWritten g u) :
      OuterWritten (g :: outer) (v ++ (u ++ [.leftParen]))

inductive OperandWritten : Option Expr → List Token → Prop
  | none : OperandWritten none []
  | some {y x} (hx : Written .factor y x) : OperandWritten (some x) y

inductive ReaderWritten (r : Reader) : List Token → Prop
  | mk {v u y} (ho : OuterWritten r.outer v) (hg : GroupWritten r.group u)
      (hx : OperandWritten r.operand y) : ReaderWritten r (v ++ (u ++ y))

variable {t : Token} {u v w y : List Token} {x : Expr} {g g' : Group} {outer : List Group}
  {r r' : Reader} {limit : Nat}

theorem groupWritten_empty : GroupWritten {} [] :=
  (.mk .none .none .none : GroupWritten {} ([] ++ ([] ++ [])))

theorem readerWritten_empty : ReaderWritten {} [] :=
  (.mk .nil groupWritten_empty .none : ReaderWritten {} ([] ++ ([] ++ [])))

theorem PendingWritten.complete {level : Level} {p : Option (Expr × Operator)}
    (h : PendingWritten level p u) (hx : Written level.tighter v x) :
    Written level (u ++ v) (Group.complete p x) := by
  cases h with
  | none => exact hx.lift
  | some hl ht hop =>
    subst hop
    rw [List.append_assoc]
    exact hl.binary ht hx

theorem CountWritten.factor (h : CountWritten g.count u) (hx : Written .factor v x) :
    Written .dice (u ++ v) (g.factor x) := by
  unfold Group.factor
  cases hc : g.count with
  | none =>
    rw [hc] at h
    cases h
    exact .ofFactor hx
  | some c =>
    rw [hc] at h
    cases h with
    | given hc =>
      rw [List.append_assoc]
      exact .dice hc hx
    | implied => exact .oneDie hx

/-! ### Groups -/

theorem GroupWritten.close (h : GroupWritten g u) (hx : Written .factor y x) :
    Written .sum (u ++ y) (g.close x) := by
  cases h with
  | mk hs hp hc =>
    rw [List.append_assoc, List.append_assoc]
    exact hs.complete (hp.complete (hc.factor hx))

theorem GroupWritten.awaitTerm {op : Operator} (h : GroupWritten g u) (hx : Written .factor y x)
    (ht : t.operator? = some op) (hop : op.level = .sum) :
    GroupWritten (g.awaitTerm x op) (u ++ (y ++ [t])) := by
  have := GroupWritten.mk (g := g.awaitTerm x op) (.some (h.close hx) ht hop) .none .none
  simpa using this

theorem GroupWritten.awaitFactor {op : Operator} (h : GroupWritten g u)
    (hx : Written .factor y x) (ht : t.operator? = some op) (hop : op.level = .product) :
    GroupWritten (g.awaitFactor x op) (u ++ (y ++ [t])) := by
  cases h with
  | mk hs hp hc =>
    have := GroupWritten.mk (g := g.awaitFactor x op) hs
      (.some (hp.complete (hc.factor hx)) ht hop) .none
    simpa using this

theorem GroupWritten.awaitSides (h : GroupWritten g u) (hx : CountWritten (some x) y)
    (hg : g.awaitSides? x = some g') : GroupWritten g' (u ++ y) := by
  cases h with
  | mk hs hp hc =>
    cases hcount : g.count with
    | some c => simp [Group.awaitSides?, hcount] at hg
    | none =>
      simp only [Group.awaitSides?, hcount, Option.some.injEq] at hg
      subst hg
      rw [hcount] at hc
      cases hc
      have := GroupWritten.mk (g := { g with count := some x }) hs hp hx
      simpa using this

theorem GroupWritten.extend (h : GroupWritten g u) (hx : Written .factor y x)
    (hg : g.extend? x t = some g') : GroupWritten g' (u ++ (y ++ [t])) := by
  cases t with
  | plus | minus =>
    obtain rfl := Option.some.inj hg
    exact h.awaitTerm hx rfl rfl
  | star | slash =>
    obtain rfl := Option.some.inj hg
    exact h.awaitFactor hx rfl rfl
  | dice => exact h.awaitSides (.given hx) hg
  | integer | leftParen | rightParen | unknown => simp [Group.extend?] at hg

/-! ### Brackets -/

theorem PendingWritten.opened_eq {level : Level} {p : Option (Expr × Operator)}
    (h : PendingWritten level p u) (n : Nat) : opened n u = n := by
  cases h with
  | none => rfl
  | some hl ht hop => simp [hl.opened_eq, Token.openAfter_operator ht]

theorem CountWritten.opened_eq {c : Option Expr} (h : CountWritten c u) (n : Nat) :
    opened n u = n := by
  cases h with
  | none | implied => rfl
  | given hc => simp [hc.opened_eq, Token.openAfter]

theorem GroupWritten.opened_eq (h : GroupWritten g u) (n : Nat) : opened n u = n := by
  cases h with
  | mk hs hp hc => simp [hs.opened_eq, hp.opened_eq, hc.opened_eq]

theorem OuterWritten.opened_eq (h : OuterWritten outer v) : opened 0 v = outer.length := by
  induction h with
  | nil => rfl
  | cons ho hg ih => simp [ih, hg.opened_eq, Token.openAfter]

theorem OperandWritten.opened_eq {o : Option Expr} (h : OperandWritten o y) (n : Nat) :
    opened n y = n := by
  cases h with
  | none => rfl
  | some hx => exact hx.opened_eq n

/-- The groups around the innermost one are the brackets open. -/
theorem ReaderWritten.opened_eq (h : ReaderWritten r w) : opened 0 w = r.outer.length := by
  cases h with
  | mk ho hg hx => simp [ho.opened_eq, hg.opened_eq, hx.opened_eq]

/-! ### Steps -/

/-- A token taken by a group, after the operand in front of it. -/
theorem readerWritten_of_extend? (ho : OuterWritten outer v) (hg : GroupWritten g u)
    (hx : Written .factor y x) (he : g.extend? x t = some g') :
    t ≠ .leftParen ∧ ReaderWritten { group := g', outer } (v ++ (u ++ (y ++ [t]))) := by
  constructor
  · rintro rfl
    exact Option.some_ne_none g' he.symm
  · have := ReaderWritten.mk (r := { group := g', outer }) ho (hg.extend hx he) .none
    simpa using this

/-- The groups that a token ends are closed in front of it. -/
theorem follow?_written (ho : OuterWritten outer v) (hg : GroupWritten g u)
    (hx : Written .factor y x) (h : Reader.follow? g x t outer = some r) :
    ∃ z, .leftParen ∉ z ∧ Abridged z [t] ∧ ReaderWritten r (v ++ (u ++ y) ++ z) := by
  -- every group that ends in front of the token appends the bracket left out
  induction outer generalizing g u v x y with
  | nil =>
    obtain ⟨g', he, rfl⟩ := Option.map_eq_some_iff.1 h
    obtain ⟨ht, hw⟩ := readerWritten_of_extend? ho hg hx he
    exact ⟨[t], by simpa using Ne.symm ht, .refl _, by simpa using hw⟩
  | cons next rest ih =>
    cases he : g.extend? x t with
    | some g' =>
      rw [Reader.follow?_of_extend? he] at h
      obtain rfl := Option.some.inj h
      obtain ⟨ht, hw⟩ := readerWritten_of_extend? ho hg hx he
      exact ⟨[t], by simpa using Ne.symm ht, .refl _, by simpa using hw⟩
    | none =>
      cases ho with
      | @cons _ _ u' v' ho' hg' =>
        have hb : Written .factor (.leftParen :: (u ++ y ++ [.rightParen])) (g.close x) :=
          .bracket (hg.close hx)
        by_cases ht : t = .rightParen
        · subst ht
          rw [Reader.follow?_rightParen] at h
          obtain rfl := Option.some.inj h
          have hw := ReaderWritten.mk
            (r := { group := next, outer := rest, operand := some (g.close x) }) ho' hg' (.some hb)
          exact ⟨[.rightParen], by simp, .refl _, by simpa using hw⟩
        · rw [Reader.follow?_cons he ht] at h
          obtain ⟨z, hz, ha, hw⟩ := ih ho' hg' hb h
          exact ⟨.rightParen :: z, by simpa using hz, .close ha, by simpa using hw⟩

/-- A step appends its token, after what was left out before it. -/
theorem step?_written (hr : ReaderWritten r w) (hn : nesting w ≤ limit)
    (h : r.step? limit t = some r') :
    ∃ z, Abridged z [t] ∧ ReaderWritten r' (w ++ z) ∧ nesting (w ++ z) ≤ limit := by
  have hopen := hr.opened_eq
  obtain ⟨g, outer, operand⟩ := r
  cases hr with
  | @mk v u y ho hg hx =>
    cases Reader.takes_of_step? h with
    | integer hoperand x =>
      cases hoperand
      cases hx
      have hw := ReaderWritten.mk (r := { group := g, outer, operand := some (.literal x) })
        ho hg (.some (.integer x))
      refine ⟨[.integer x], .refl _, by simpa using hw, ?_⟩
      rwa [Token.nesting_append_of_not_mem (by simp)]
    | leftParen hoperand hlt =>
      cases hoperand
      cases hx
      have hw := ReaderWritten.mk (r := { outer := g :: outer }) (.cons ho hg)
        groupWritten_empty .none
      refine ⟨[.leftParen], .refl _, by simpa using hw, ?_⟩
      rw [nesting, Token.peak_append, hopen]
      simp only [nesting, Token.peak_cons, Token.peak_nil, Token.openAfter] at hn hlt ⊢
      omega
    | @oneDie g' hoperand hg' =>
      cases hoperand
      cases hx
      have hw := ReaderWritten.mk (r := { group := g', outer }) ho
        (hg.awaitSides .implied hg') .none
      refine ⟨[.dice], .refl _, by simpa using hw, ?_⟩
      rwa [Token.nesting_append_of_not_mem (by simp)]
    | follow h =>
      cases hx with
      | some hx =>
        obtain ⟨z, hz, ha, hw⟩ := follow?_written ho hg hx h
        exact ⟨z, ha, hw, by rwa [Token.nesting_append_of_not_mem hz]⟩
      | none =>
        obtain ⟨z, hz, ha, hw⟩ := follow?_written ho hg (.integer 0) h
        refine ⟨.integer 0 :: z, .zero ha, by simpa using hw, ?_⟩
        rwa [Token.nesting_append_of_not_mem (by simpa using hz)]

theorem steps?_written {ts : List Token} (hr : ReaderWritten r w) (hn : nesting w ≤ limit)
    (h : r.steps? limit ts = some r') :
    ∃ z, Abridged z ts ∧ ReaderWritten r' (w ++ z) ∧ nesting (w ++ z) ≤ limit := by
  induction ts generalizing r w with
  | nil =>
    obtain rfl : r = r' := Option.some.inj h
    exact ⟨[], .nil, by simpa using hr, by simpa using hn⟩
  | cons t ts ih =>
    obtain ⟨next, hs, h⟩ := Option.bind_eq_some_iff.1 ((Reader.steps?_cons r t ts).symm.trans h)
    obtain ⟨z, ha, hr, hn⟩ := step?_written hr hn hs
    obtain ⟨z', ha', hr', hn'⟩ := ih hr hn h
    exact ⟨z ++ z', ha.append ha', by simpa using hr', by simpa using hn'⟩

/-! ### The end of a run -/

/-- Closing all groups appends nothing but brackets. -/
theorem closeAll_written (ho : OuterWritten outer v) (hg : GroupWritten g u)
    (hx : Written .factor y x) :
    ∃ z, .leftParen ∉ z ∧ Abridged z [] ∧ Written .sum (v ++ (u ++ y) ++ z)
      (outer.foldl (fun operand g => g.close operand) (g.close x)) := by
  induction outer generalizing g u v x y with
  | nil =>
    cases ho
    exact ⟨[], by simp, .nil, by simpa using hg.close hx⟩
  | cons next rest ih =>
    cases ho with
    | cons ho' hg' =>
      obtain ⟨z, hz, ha, hw⟩ := ih ho' hg' (.bracket (hg.close hx))
      exact ⟨.rightParen :: z, by simpa using hz, .close ha, by simpa using hw⟩

theorem finish_written (hr : ReaderWritten r w) (hn : nesting w ≤ limit) :
    ∃ z, Abridged z [] ∧ Written .sum (w ++ z) r.finish ∧ nesting (w ++ z) ≤ limit := by
  obtain ⟨g, outer, operand⟩ := r
  cases hr with
  | mk ho hg hx =>
    cases hx with
    | some hx =>
      obtain ⟨z, hz, ha, hw⟩ := closeAll_written ho hg hx
      exact ⟨z, ha, hw, by rwa [Token.nesting_append_of_not_mem hz]⟩
    | none =>
      obtain ⟨z, hz, ha, hw⟩ := closeAll_written ho hg (.integer 0)
      refine ⟨.integer 0 :: z, .zero ha, by simpa [Reader.finish] using hw, ?_⟩
      rwa [Token.nesting_append_of_not_mem (by simpa using hz)]

/-- Whatever the tokens are, those that were read are a written form of the expression,
of bounded nesting, with zeros, ones in front of a `d` and closing brackets left out;
and no operator is left over in front. -/
theorem read_written (ts : List Token) :
    ∃ c w, ts = c ++ (read ts).2 ∧ Written .sum w (ofTokens ts) ∧ nesting w ≤ maxDepth ∧
      Abridged w c ∧ ∀ t ∈ (read ts).2.head?, t.operator? = none := by
  obtain ⟨c, r, hts, hs, hf, hstop⟩ := Reader.run_split maxDepth {} ts
  obtain ⟨w, ha, hr, hn⟩ := steps?_written readerWritten_empty (Nat.zero_le _) hs
  obtain ⟨z, hz, hw, hn⟩ := finish_written hr hn
  refine ⟨c, [] ++ w ++ z, hts, ?_, hn, by simpa using ha.append hz, fun t ht => ?_⟩
  · rw [ofTokens, read, readWithin, hf]
    exact hw
  · cases hop : t.operator? with
    | none => rfl
    | some op => exact absurd (hstop t ht) (Reader.step?_operator_ne_none hop r)

end DiceNotation.Expr
