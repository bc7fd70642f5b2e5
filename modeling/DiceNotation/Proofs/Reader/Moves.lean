import DiceNotation.Proofs.Reader.Steps
import Mathlib.Logic.Relation

/-! Reading in single moves. A step of the reader takes a token, and before it may fill in
an operand and end any number of groups; here each of these is a move, so that it can be
told when a group begins and when it is over. Moves come to what the reader reads, and
whatever is read in a group, it ends with the groups around it as they were. -/

namespace DiceNotation.Expr.Reader

variable {limit : Nat}

/-! ### Single moves -/

/-- The number of groups around the innermost one, which is the number of brackets open. -/
def depth (r : Reader) : Nat := r.outer.length

/-- A missing operand is zero. -/
def fillIn (r : Reader) : Reader := { r with operand := some (.literal 0) }

/-- The move where an operand is due: the operand, the bracket or the `d` in front is taken,
or else the operand is missing. -/
def begin (limit : Nat) (r : Reader) : List Token → Reader × List Token
  | .integer x :: ts => ({ r with operand := some (.literal x) }, ts)
  | .leftParen :: ts =>
    if r.depth < limit then ({ outer := r.group :: r.outer }, ts) else (r.fillIn, .leftParen :: ts)
  | .dice :: ts =>
    match r.group.awaitSides? (.literal 1) with
    | some g => ({ r with group := g }, ts)
    | none => (r.fillIn, .dice :: ts)
  | ts => (r.fillIn, ts)

/-- The closing bracket of a group is taken if it is there. -/
def skipClose : List Token → List Token
  | .rightParen :: ts => ts
  | ts => ts

/-- The group with the operand takes none of these tokens. -/
def Complete (g : Group) (operand : Expr) (ts : List Token) : Prop :=
  ts.head?.bind (g.extend? operand) = none

/-- The move after an operand: the group takes the next token, or it ends. -/
def proceed? (r : Reader) (operand : Expr) (ts : List Token) : Option (Reader × List Token) :=
  match ts.head?.bind (r.group.extend? operand) with
  | some g => some ({ group := g, outer := r.outer }, ts.tail)
  | none =>
    match r.outer with
    | [] => none
    | next :: outer =>
      some ({ group := next, outer, operand := some (r.group.close operand) }, skipClose ts)

/-- One move, or `none` where the outermost group is complete. -/
def move? (limit : Nat) (r : Reader) (ts : List Token) : Option (Reader × List Token) :=
  match r.operand with
  | none => some (r.begin limit ts)
  | some operand => r.proceed? operand ts

/-- `Reads limit floor a b`: moves lead from `a` to `b`, and at least `floor` groups stay
open all the way. -/
def Reads (limit floor : Nat) : Reader × List Token → Reader × List Token → Prop :=
  Relation.ReflTransGen fun a b => a.1.move? limit a.2 = some b ∧ floor ≤ b.1.depth

theorem begin_leftParen {r : Reader} (h : r.depth < limit) (ts : List Token) :
    r.begin limit (.leftParen :: ts) = ({ outer := r.group :: r.outer }, ts) := if_pos h

theorem begin_leftParen_of_not_lt {r : Reader} (h : ¬r.depth < limit) (ts : List Token) :
    r.begin limit (.leftParen :: ts) = (r.fillIn, .leftParen :: ts) := if_neg h

theorem proceed?_of_extend {r : Reader} {g : Group} {x : Expr} {t : Token}
    (h : r.group.extend? x t = some g) (ts : List Token) :
    r.proceed? x (t :: ts) = some ({ group := g, outer := r.outer }, ts) := by
  simp only [proceed?, List.head?_cons, Option.bind_some, h, List.tail_cons]

theorem proceed?_of_complete {g next : Group} {x : Expr} {ts : List Token} (h : Complete g x ts)
    (outer : List Group) (operand : Option Expr) :
    proceed? { group := g, outer := next :: outer, operand } x ts =
      some ({ group := next, outer, operand := some (g.close x) }, skipClose ts) := by
  simp only [proceed?, show ts.head?.bind (g.extend? x) = none from h]

/-! ### Moves and runs -/

theorem follow?_leftParen (g : Group) (x : Expr) (outer : List Group) :
    follow? g x .leftParen outer = none :=
  follow?_eq_none (fun _ _ => rfl) Token.noConfusion g x outer

/-- Filling in the operand changes nothing in front of a token that would do it too. -/
theorem run_fillIn {r : Reader} {ts : List Token} (hr : r.operand = none)
    (h : ∀ t ∈ ts.head?, r.step? limit t = r.fillIn.step? limit t) :
    r.run limit ts = r.fillIn.run limit ts := by
  have hfinish : r.finish = r.fillIn.finish := by
    simp only [finish, hr, fillIn, Option.getD_none, Option.getD_some]
  cases ts with
  | nil => simp only [run, hfinish]
  | cons t ts => simp only [run, h t rfl, hfinish]

theorem run_begin (g : Group) (outer : List Group) (ts : List Token) :
    run limit { group := g, outer } ts = (begin limit { group := g, outer } ts).1.run limit
      (begin limit { group := g, outer } ts).2 := by
  let r : Reader := { group := g, outer }
  have missing {t : Token} (h : r.step? limit t = r.fillIn.step? limit t) (ts : List Token) :
      r.run limit (t :: ts) = r.fillIn.run limit (t :: ts) := by
    refine run_fillIn rfl fun t' ht => ?_
    obtain rfl := Option.some.inj ht
    exact h
  cases ts with
  | nil => exact run_fillIn rfl (by simp)
  | cons t ts =>
    cases t with
    | integer x => rfl
    | leftParen =>
      by_cases hlt : r.depth < limit
      · have hstep : r.step? limit .leftParen = some { outer := g :: outer } := if_pos hlt
        rw [begin_leftParen hlt, run, hstep]
      · have hstep : r.step? limit .leftParen = r.fillIn.step? limit .leftParen :=
          (if_neg hlt).trans (follow?_leftParen g _ outer).symm
        rw [begin_leftParen_of_not_lt hlt]
        exact missing hstep ts
    | dice =>
      cases hg : g.awaitSides? (.literal 1) with
      | some g' => simp only [begin, hg, run, step?]
      | none =>
        have hstep : r.step? limit .dice = r.fillIn.step? limit .dice := by
          simp only [step?, r, hg, fillIn]
        simp only [begin, hg]
        exact missing hstep ts
    | rightParen | plus | minus | star | slash | unknown => exact missing rfl ts

theorem run_proceed {g : Group} {outer : List Group} {x : Expr} {ts ts' : List Token} {r : Reader}
    (h : proceed? { group := g, outer, operand := some x } x ts = some (r, ts')) :
    run limit { group := g, outer, operand := some x } ts = r.run limit ts' := by
  cases ts with
  | nil =>
    cases outer with
    | nil => cases h
    | cons next outer =>
      obtain ⟨rfl, rfl⟩ := Prod.mk.inj (Option.some.inj h)
      rfl
  | cons t ts =>
    cases hg : g.extend? x t with
    | some g' =>
      rw [proceed?_of_extend hg] at h
      obtain ⟨rfl, rfl⟩ := Prod.mk.inj (Option.some.inj h)
      simp only [run, step?, follow?_of_extend? hg]
    | none =>
      have hcomplete : Complete g x (t :: ts) := hg
      cases outer with
      | nil => simp only [proceed?, List.head?_cons, Option.bind_some, hg, reduceCtorEq] at h
      | cons next outer =>
        rw [proceed?_of_complete hcomplete] at h
        obtain ⟨rfl, rfl⟩ := Prod.mk.inj (Option.some.inj h)
        by_cases ht : t = .rightParen
        · subst ht
          simp only [run, step?, follow?_rightParen, skipClose]
        · have hskip : skipClose (t :: ts) = t :: ts := by
            cases t <;> first | rfl | contradiction
          rw [hskip]
          simp only [run, step?, follow?_cons hg ht]
          rfl

theorem run_move {r r' : Reader} {ts ts' : List Token} (h : r.move? limit ts = some (r', ts')) :
    r.run limit ts = r'.run limit ts' := by
  obtain ⟨g, outer, operand⟩ := r
  cases operand with
  | none =>
    obtain ⟨rfl, rfl⟩ := Prod.mk.inj (Option.some.inj h)
    exact run_begin g outer ts
  | some x => exact run_proceed h

/-- In front of what the outermost group does not take, reading stops. -/
theorem run_of_complete {g : Group} {x : Expr} {ts : List Token} (h : Complete g x ts) :
    run limit { group := g, operand := some x } ts = (g.close x, ts) := by
  cases ts with
  | nil => rfl
  | cons t ts =>
    have hstep : step? limit { group := g, operand := some x } t = none :=
      congrArg (Option.map _) h
    rw [run, hstep]
    rfl

namespace Reads

variable {floor : Nat} {a b c : Reader × List Token}

theorem head (h : a.1.move? limit a.2 = some b) (hfloor : floor ≤ b.1.depth)
    (hbc : Reads limit floor b c) : Reads limit floor a c :=
  Relation.ReflTransGen.head ⟨h, hfloor⟩ hbc

theorem trans (hab : Reads limit floor a b) (hbc : Reads limit floor b c) :
    Reads limit floor a c :=
  Relation.ReflTransGen.trans hab hbc

theorem mono {floor' : Nat} (h : Reads limit floor a b) (hle : floor' ≤ floor) :
    Reads limit floor' a b :=
  Relation.ReflTransGen.mono (fun _ _ hm => ⟨hm.1, Nat.le_trans hle hm.2⟩) _ _ h

theorem run_eq (h : Reads limit floor a b) : a.1.run limit a.2 = b.1.run limit b.2 := by
  induction h with
  | refl => rfl
  | tail hab hm ih => exact ih.trans (run_move hm.1)

end Reads

/-! ### The number of groups -/

theorem depth_begin_le {r : Reader} (h : r.depth ≤ limit) (ts : List Token) :
    (r.begin limit ts).1.depth ≤ limit := by
  unfold begin
  split
  · exact h
  · split
    · next hlt => exact hlt
    · exact h
  · split <;> exact h
  · exact h

theorem depth_move_le {r r' : Reader} {ts ts' : List Token} (h : r.depth ≤ limit)
    (hm : r.move? limit ts = some (r', ts')) : r'.depth ≤ limit := by
  obtain ⟨g, outer, operand⟩ := r
  cases operand with
  | none =>
    obtain ⟨rfl, rfl⟩ := Prod.mk.inj (Option.some.inj hm)
    exact depth_begin_le h ts
  | some x =>
    simp only [move?, proceed?] at hm
    split at hm
    · obtain ⟨rfl, rfl⟩ := Prod.mk.inj (Option.some.inj hm)
      exact h
    · cases outer with
      | nil => cases hm
      | cons next outer =>
        obtain ⟨rfl, rfl⟩ := Prod.mk.inj (Option.some.inj hm)
        exact Nat.le_of_succ_le h

theorem Reads.depth_le {floor : Nat} {a b : Reader × List Token} (h : Reads limit floor a b)
    (ha : a.1.depth ≤ limit) : b.1.depth ≤ limit := by
  induction h with
  | refl => exact ha
  | tail hab hm ih => exact depth_move_le ih hm.1

/-! ### Groups that end -/

/-- The innermost group is read to its end: it takes no more, and the groups around it are
those that were around it at the start, and were so all the way. -/
def Finishes (limit : Nat) (r : Reader) (ts : List Token) : Prop :=
  ∃ g x us, us.length ≤ ts.length ∧
    Reads limit r.depth (r, ts) ({ group := g, outer := r.outer, operand := some x }, us) ∧
    Complete g x us

/-- The operand that is due is read, with the group and those around it as they were. -/
def FindsOperand (limit : Nat) (r : Reader) (ts : List Token) : Prop :=
  ∃ x us, us.length ≤ ts.length ∧ Reads limit r.depth (r, ts) ({ r with operand := some x }, us)

theorem length_skipClose_le (ts : List Token) : (skipClose ts).length ≤ ts.length := by
  unfold skipClose
  split
  · exact Nat.le_succ _
  · exact Nat.le_refl _

theorem findsOperand_of_begin {r : Reader} {x : Expr} {ts us : List Token} (hr : r.operand = none)
    (h : r.begin limit ts = ({ r with operand := some x }, us)) (hlen : us.length ≤ ts.length) :
    FindsOperand limit r ts := by
  have hmove : r.move? limit ts = some ({ r with operand := some x }, us) := by
    rw [move?, hr, ← h]
  exact ⟨x, us, hlen, .head hmove (Nat.le_refl _) .refl⟩

/-- A bracket is an operand once the group in it is read to its end. -/
theorem findsOperand_bracket {r : Reader} {ts : List Token} (hr : r.operand = none)
    (hlt : r.depth < limit) (h : Finishes limit { outer := r.group :: r.outer } ts) :
    FindsOperand limit r (.leftParen :: ts) := by
  obtain ⟨g, x, us, hlen, hreads, hcomplete⟩ := h
  have hopen : r.move? limit (.leftParen :: ts) = some ({ outer := r.group :: r.outer }, ts) := by
    rw [move?, hr]
    exact congrArg some (begin_leftParen hlt ts)
  have hclose : move? limit { group := g, outer := r.group :: r.outer, operand := some x } us =
      some ({ r with operand := some (g.close x) }, skipClose us) :=
    proceed?_of_complete hcomplete r.outer (some x)
  refine ⟨g.close x, skipClose us, ?_, .head hopen (Nat.le_succ _)
    ((hreads.mono (Nat.le_succ _)).trans (.head hclose (Nat.le_refl _) .refl))⟩
  exact Nat.le_trans (length_skipClose_le us) (Nat.le_succ_of_le hlen)

/-- A `d` in front of which no count is due is not an operand. -/
theorem findsOperand_of_finishes {r : Reader} {ts : List Token} (hr : r.operand = none)
    (hdice : ts.head? = some .dice → r.group.count ≠ none)
    (ih : ∀ r' ts', ts'.length < ts.length → r'.operand = none → Finishes limit r' ts') :
    FindsOperand limit r ts := by
  cases ts with
  | nil => exact findsOperand_of_begin hr rfl (Nat.le_refl _)
  | cons t ts =>
    cases t with
    | integer x => exact findsOperand_of_begin hr rfl (Nat.le_succ _)
    | leftParen =>
      by_cases hlt : r.depth < limit
      · exact findsOperand_bracket hr hlt (ih _ ts (Nat.lt_succ_self _) rfl)
      · exact findsOperand_of_begin hr (begin_leftParen_of_not_lt hlt ts) (Nat.le_refl _)
    | dice =>
      obtain ⟨c, hc⟩ := Option.ne_none_iff_exists'.1 (hdice rfl)
      have hbegin : r.begin limit (.dice :: ts) = (r.fillIn, .dice :: ts) := by
        simp only [begin, Group.awaitSides?, hc]
      exact findsOperand_of_begin hr hbegin (Nat.le_refl _)
    | rightParen | plus | minus | star | slash | unknown =>
      exact findsOperand_of_begin hr rfl (Nat.le_refl _)

theorem Finishes.of_move {r : Reader} {g : Group} {operand : Option Expr} {ts us : List Token}
    (h : r.move? limit ts = some ({ group := g, outer := r.outer, operand }, us))
    (hlen : us.length ≤ ts.length)
    (hf : Finishes limit { group := g, outer := r.outer, operand } us) : Finishes limit r ts := by
  obtain ⟨g', x, vs, hlen', hreads, hcomplete⟩ := hf
  exact ⟨g', x, vs, Nat.le_trans hlen' hlen, .head h (Nat.le_refl _) hreads, hcomplete⟩

/-- With its operand read, a group goes on for as long as it takes the next token. -/
theorem finishes_of_findsOperand {r : Reader} {ts : List Token} (h : FindsOperand limit r ts)
    (ih : ∀ r' ts', ts'.length < ts.length → r'.operand = none → Finishes limit r' ts') :
    Finishes limit r ts := by
  obtain ⟨x, us, hlen, hreads⟩ := h
  by_cases hcomplete : Complete r.group x us
  · exact ⟨r.group, x, us, hlen, hreads, hcomplete⟩
  · cases us with
    | nil => exact absurd rfl hcomplete
    | cons t us =>
      obtain ⟨g, hg⟩ := Option.ne_none_iff_exists'.1 hcomplete
      have hg : r.group.extend? x t = some g := hg
      have hmove : move? limit { r with operand := some x } (t :: us) =
          some ({ group := g, outer := r.outer }, us) := proceed?_of_extend hg us
      obtain ⟨g', y, vs, hlen', hreads', hcomplete'⟩ := ih { group := g, outer := r.outer } us
        hlen rfl
      exact ⟨g', y, vs, Nat.le_trans hlen' (Nat.le_of_succ_le hlen),
        hreads.trans (.head hmove (Nat.le_refl _) hreads'), hcomplete'⟩

theorem finishes (limit : Nat) (r : Reader) (ts : List Token) (hr : r.operand = none) :
    Finishes limit r ts := by
  -- The groups inside the innermost one are read to their ends on fewer tokens.
  induction hn : ts.length using Nat.strongRecOn generalizing r ts with
  | _ n ih =>
    subst hn
    have ih' (r' : Reader) (ts' : List Token) (hlt : ts'.length < ts.length)
        (hr' : r'.operand = none) : Finishes limit r' ts' := ih _ hlt r' ts' hr' rfl
    by_cases hdice : ts.head? = some .dice ∧ r.group.count = none
    · obtain ⟨hhead, hcount⟩ := hdice
      obtain ⟨us, rfl⟩ := List.head?_eq_some_iff.1 hhead
      have hmove : r.move? limit (.dice :: us) =
          some ({ group := { r.group with count := some (.literal 1) }, outer := r.outer }, us) := by
        simp only [move?, hr, begin, Group.awaitSides?, hcount]
      exact .of_move hmove (Nat.le_succ _) (ih' _ us (Nat.lt_succ_self _) rfl)
    · have hoperand := findsOperand_of_finishes hr (fun h hcount => hdice ⟨h, hcount⟩) ih'
      exact finishes_of_findsOperand hoperand ih'

/-- Moves lead from the start to the end of the outermost group. -/
theorem exists_reads_readWithin (limit : Nat) (ts : List Token) :
    ∃ g x rest, Reads limit 0 ({}, ts) ({ group := g, operand := some x }, rest) ∧
      Complete g x rest ∧ readWithin limit ts = (g.close x, rest) := by
  obtain ⟨g, x, rest, -, hreads, hcomplete⟩ := finishes limit {} ts rfl
  refine ⟨g, x, rest, hreads, hcomplete, ?_⟩
  rw [readWithin, hreads.run_eq, run_of_complete hcomplete]

theorem findsOperand (limit : Nat) {r : Reader} {ts : List Token} (hr : r.operand = none)
    (hdice : ts.head? = some .dice → r.group.count ≠ none) : FindsOperand limit r ts :=
  findsOperand_of_finishes hr hdice fun r' ts' _ hr' => finishes limit r' ts' hr'

end DiceNotation.Expr.Reader
