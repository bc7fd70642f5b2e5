import DiceNotation.Expr.Reader
import DiceNotation.Proofs.Reader.Grammar

/-! A run of the reader as a sequence of steps: reading takes tokens as long as a
step can, and closes what is open in front of the first token that none can take. -/

namespace DiceNotation.Expr

namespace Group

theorem extend?_operator {t : Token} {op : Operator} (ht : t.operator? = some op)
    (g : Group) (x : Expr) : ∃ g', g.extend? x t = some g' := by
  cases t <;> first | contradiction | exact ⟨_, rfl⟩

theorem extend?_of_level_sum {t : Token} {op : Operator} (ht : t.operator? = some op)
    (hop : op.level = .sum) (g : Group) (x : Expr) :
    g.extend? x t = some (g.awaitTerm x op) := by
  cases t <;> cases ht <;> first | rfl | contradiction

theorem extend?_of_level_product {t : Token} {op : Operator} (ht : t.operator? = some op)
    (hop : op.level = .product) (g : Group) (x : Expr) :
    g.extend? x t = some (g.awaitFactor x op) := by
  cases t <;> cases ht <;> first | rfl | contradiction

end Group

namespace Reader

variable {limit : Nat}

/-! ### Steps -/

/-- The reader after the tokens, if it takes them all. -/
def steps? (limit : Nat) (r : Reader) (ts : List Token) : Option Reader :=
  ts.foldlM (step? limit) r

@[simp] theorem steps?_nil (r : Reader) : r.steps? limit [] = some r := rfl

@[simp] theorem steps?_cons (r : Reader) (t : Token) (ts : List Token) :
    r.steps? limit (t :: ts) = (r.step? limit t).bind fun next => next.steps? limit ts := by
  simp [steps?]

theorem steps?_append (r : Reader) (ts us : List Token) :
    r.steps? limit (ts ++ us) = (r.steps? limit ts).bind fun next => next.steps? limit us := by
  simp [steps?]

theorem steps?_trans {r r₁ r₂ : Reader} {ts us : List Token} (h : r.steps? limit ts = some r₁)
    (h' : r₁.steps? limit us = some r₂) : r.steps? limit (ts ++ us) = some r₂ := by
  rw [steps?_append, h, Option.bind_some, h']

/-- Words on both sides of a token that is taken between them. -/
theorem steps?_between {r r₁ r₂ r₃ : Reader} {t : Token} {ts us : List Token}
    (h : r.steps? limit ts = some r₁) (ht : r₁.step? limit t = some r₂)
    (h' : r₂.steps? limit us = some r₃) : r.steps? limit (ts ++ t :: us) = some r₃ := by
  refine steps?_trans h ?_
  rw [steps?_cons, ht, Option.bind_some, h']

/-- A bracketed word is an operand of the group around it. -/
theorem steps?_bracket {g₀ g : Group} {x : Expr} {outer : List Group} {ts : List Token}
    (hlt : outer.length < limit) (h : steps? limit { outer := g₀ :: outer } ts =
      some { group := g, outer := g₀ :: outer, operand := some x }) :
    steps? limit { group := g₀, outer } (.leftParen :: (ts ++ [.rightParen])) =
      some { group := g₀, outer, operand := some (g.close x) } := by
  have hopen : step? limit { group := g₀, outer } .leftParen = some { outer := g₀ :: outer } :=
    if_pos hlt
  have hclose : step? limit { group := g, outer := g₀ :: outer, operand := some x } .rightParen =
      some { group := g₀, outer, operand := some (g.close x) } := rfl
  exact steps?_between (steps?_nil _) hopen (steps?_between h hclose (steps?_nil _))

theorem run_of_steps? {r r' : Reader} {ts : List Token} (h : r.steps? limit ts = some r')
    (rest : List Token) : r.run limit (ts ++ rest) = r'.run limit rest := by
  induction ts generalizing r with
  | nil =>
    obtain rfl : r = r' := Option.some.inj h
    rfl
  | cons t ts ih =>
    obtain ⟨next, hn, hr⟩ := Option.bind_eq_some_iff.1 ((steps?_cons r t ts).symm.trans h)
    simp only [List.cons_append, run, hn]
    exact ih hr

/-- Steps take the tokens, and none takes the one after them: what is behind it is not seen. -/
theorem run_of_stop {r r' : Reader} {ts rest : List Token} (h : r.steps? limit ts = some r')
    (hstop : ∀ t ∈ rest.head?, r'.step? limit t = none) :
    r.run limit (ts ++ rest) = (r'.finish, rest) := by
  rw [run_of_steps? h]
  cases rest with
  | nil => rfl
  | cons t rest => rw [run, hstop t rfl]

/-- What follows the tokens matters only to the reader that has taken them all. -/
theorem run_append_congr {r : Reader} {ts us vs : List Token}
    (h : ∀ r', r.steps? limit ts = some r' → (r'.run limit us).1 = (r'.run limit vs).1) :
    (r.run limit (ts ++ us)).1 = (r.run limit (ts ++ vs)).1 := by
  induction ts generalizing r with
  | nil => exact h r rfl
  | cons t ts ih =>
    simp only [List.cons_append, run]
    cases hn : r.step? limit t with
    | none => rfl
    | some next =>
      refine ih fun r' hr' => h r' ?_
      rw [steps?_cons, hn, Option.bind_some, hr']

/-- It has no influence if that reader ends in front of it as it would at the end. -/
theorem run_append_of_finish {r : Reader} {ts us : List Token}
    (h : ∀ r', r.steps? limit ts = some r' → (r'.run limit us).1 = r'.finish) :
    (r.run limit (ts ++ us)).1 = (r.run limit ts).1 := by
  have hnil : ∀ r', r.steps? limit ts = some r' → (r'.run limit us).1 = (r'.run limit []).1 := h
  rw [run_append_congr hnil, List.append_nil]

theorem exists_last_step {r r' : Reader} {ts : List Token} {t : Token}
    (h : r.steps? limit ts = some r') (ht : ts.getLast? = some t) :
    ∃ s : Reader, s.step? limit t = some r' := by
  obtain ⟨us, rfl⟩ := List.getLast?_eq_some_iff.1 ht
  rw [steps?_append] at h
  obtain ⟨s, -, hs⟩ := Option.bind_eq_some_iff.1 h
  rw [steps?_cons] at hs
  obtain ⟨s', hs', hr'⟩ := Option.bind_eq_some_iff.1 hs
  obtain rfl : s' = r' := Option.some.inj hr'
  exact ⟨s, hs'⟩

/-- A run takes the tokens in front of the first that no step takes, and ends there. -/
theorem run_split (limit : Nat) (r : Reader) (ts : List Token) :
    ∃ c r', ts = c ++ (r.run limit ts).2 ∧ r.steps? limit c = some r' ∧
      (r.run limit ts).1 = r'.finish ∧
      ∀ t ∈ (r.run limit ts).2.head?, r'.step? limit t = none := by
  induction ts generalizing r with
  | nil => exact ⟨[], r, rfl, rfl, rfl, by simp [run]⟩
  | cons t ts ih =>
    cases hn : r.step? limit t with
    | none => exact ⟨[], r, by simp [run, hn], rfl, by simp [run, hn], by simp [run, hn]⟩
    | some next =>
      obtain ⟨c, r', hc, hs, hf, hr⟩ := ih next
      refine ⟨t :: c, r', ?_, ?_, ?_, ?_⟩
      · simpa [run, hn] using hc
      · simpa [hn] using hs
      · simpa [run, hn] using hf
      · simpa [run, hn] using hr

theorem run_suffix (limit : Nat) (r : Reader) (ts : List Token) : (r.run limit ts).2 <:+ ts := by
  obtain ⟨c, r', hts, -⟩ := run_split limit r ts
  exact ⟨c, hts.symm⟩

/-! ### The group that takes a token -/

theorem follow?_of_extend? {g g' : Group} {x : Expr} {t : Token}
    (h : g.extend? x t = some g') (outer : List Group) :
    follow? g x t outer = some { group := g', outer } := by
  cases outer <;> simp [follow?, h]

/-- A closing bracket ends the innermost group, which becomes an operand of the next. -/
theorem follow?_rightParen (g next : Group) (x : Expr) (outer : List Group) :
    follow? g x .rightParen (next :: outer) =
      some { group := next, outer, operand := some (g.close x) } := rfl

/-- No token but a closing bracket and those that extend the group is taken by it:
the group is closed, and the next one is asked. -/
theorem follow?_cons {g next : Group} {x : Expr} {t : Token} (h : g.extend? x t = none)
    (ht : t ≠ .rightParen) (outer : List Group) :
    follow? g x t (next :: outer) = follow? next (g.close x) t outer := by
  simp [follow?, h, ht]

/-- A token that extends no group and closes none is not taken. -/
theorem follow?_eq_none {t : Token} (h : ∀ g x, Group.extend? g x t = none)
    (ht : t ≠ .rightParen) (g : Group) (x : Expr) (outer : List Group) :
    follow? g x t outer = none := by
  induction outer generalizing g x with
  | nil => simp only [follow?, h, Option.map_none]
  | cons next outer ih => rw [follow?_cons (h g x) ht, ih]

/-- Any other token that is taken extends one of the groups, and asks for an operand. -/
theorem exists_extend?_of_follow? {g : Group} {x : Expr} {t : Token} {outer : List Group}
    {r : Reader} (h : follow? g x t outer = some r) (ht : t ≠ .rightParen) :
    r.operand = none ∧ r.outer <:+ outer ∧ ∃ g' x', Group.extend? g' x' t = some r.group := by
  induction outer generalizing g x with
  | nil =>
    obtain ⟨g', hg', rfl⟩ := Option.map_eq_some_iff.1 h
    exact ⟨rfl, List.suffix_rfl, g, x, hg'⟩
  | cons next outer ih =>
    cases hg : g.extend? x t with
    | some g' =>
      rw [follow?_of_extend? hg] at h
      obtain rfl := Option.some.inj h
      exact ⟨rfl, List.suffix_rfl, g, x, hg⟩
    | none =>
      rw [follow?_cons hg ht] at h
      obtain ⟨hr, hsuffix, hextend⟩ := ih h
      exact ⟨hr, hsuffix.trans (List.suffix_cons _ _), hextend⟩

theorem exists_of_follow?_rightParen {g : Group} {x : Expr} {outer : List Group} {r : Reader}
    (h : follow? g x .rightParen outer = some r) :
    ∃ next rest, outer = next :: rest ∧
      r = { group := next, outer := rest, operand := some (g.close x) } := by
  cases outer with
  | nil => cases h
  | cons next rest => exact ⟨next, rest, rfl, (Option.some.inj h).symm⟩

/-- All that a step can do: begin an operand where one is due, or go on after one. -/
inductive Takes (limit : Nat) (r : Reader) : Token → Reader → Prop
  | integer (hr : r.operand = none) (x : Int64) :
      Takes limit r (.integer x) { r with operand := some (.literal x) }
  | leftParen (hr : r.operand = none) (hlt : r.outer.length < limit) :
      Takes limit r .leftParen { outer := r.group :: r.outer }
  | oneDie {g : Group} (hr : r.operand = none) (hg : r.group.awaitSides? (.literal 1) = some g) :
      Takes limit r .dice { r with group := g }
  | follow {t : Token} {r' : Reader}
      (h : follow? r.group (r.operand.getD (.literal 0)) t r.outer = some r') : Takes limit r t r'

theorem takes_of_step? {r r' : Reader} {t : Token} (h : r.step? limit t = some r') :
    Takes limit r t r' := by
  cases hx : r.operand with
  | some x =>
    simp only [step?, hx] at h
    exact .follow (by rwa [hx])
  | none =>
    have missing (h : follow? r.group (.literal 0) t r.outer = some r') : Takes limit r t r' :=
      .follow (by rwa [hx])
    cases t with
    | integer x =>
      simp only [step?, hx] at h
      obtain rfl := Option.some.inj h
      exact .integer hx x
    | leftParen =>
      simp only [step?, hx] at h
      split at h
      · next hlt =>
        obtain rfl := Option.some.inj h
        exact .leftParen hx hlt
      · contradiction
    | dice =>
      simp only [step?, hx] at h
      split at h
      · next g hg =>
        obtain rfl := Option.some.inj h
        rw [← hx]
        exact .oneDie hx hg
      · exact missing h
    | rightParen | plus | minus | star | slash | unknown =>
      simp only [step?, hx] at h
      exact missing h

/-- Where an operand is missing the token is offered to the groups after a zero. -/
theorem step?_of_lacksOperand {t : Token} (ht : t.LacksOperand) (r : Reader) :
    r.step? limit t = follow? r.group (r.operand.getD (.literal 0)) t r.outer := by
  cases hx : r.operand with
  | some x => simp only [step?, hx, Option.getD_some]
  | none => cases t <;> first | contradiction | simp only [step?, hx, Option.getD_none]

theorem step?_operator_ne_none {t : Token} {op : Operator} (ht : t.operator? = some op)
    (r : Reader) : r.step? limit t ≠ none := by
  obtain ⟨g, hg⟩ := Group.extend?_operator ht r.group (r.operand.getD (.literal 0))
  rw [step?_of_lacksOperand (Token.lacksOperand_of_operator? ht), follow?_of_extend? hg]
  exact Option.some_ne_none _

end Reader

end DiceNotation.Expr
