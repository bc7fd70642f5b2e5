import Mathlib.Data.List.Basic

/-! Texts that show where they end. A number in decimal goes on as long as digits follow, so
it is read off a longer text only where the next character is none of its own; `Delimited`
says so of texts of any kind. A list of texts is read off by its separator, whose first
character no entry holds. -/

namespace DiceNotation.Text

/-! ### Runs -/

section Runs
variable {α : Type} {p : α → Bool} {as bs cs ds : List α}

/-- No run of elements of the class goes on into the list. -/
def Stops (p : α → Bool) (cs : List α) : Prop := ∀ c ∈ cs.head?, p c = false

@[simp] theorem stops_nil : Stops p [] := by simp [Stops]

@[simp] theorem stops_cons {c : α} : Stops p (c :: cs) ↔ p c = false := by simp [Stops]

theorem Stops.takeWhile_eq_nil (h : Stops p cs) : cs.takeWhile p = [] := by
  cases cs with
  | nil => rfl
  | cons c cs => exact List.takeWhile_cons_of_neg (Bool.not_eq_true _ ▸ stops_cons.1 h)

theorem takeWhile_run (has : ∀ a ∈ as, p a = true) (hbs : Stops p bs) :
    (as ++ bs).takeWhile p = as := by
  rw [List.takeWhile_append_of_pos has, hbs.takeWhile_eq_nil, List.append_nil]

theorem run_append_inj (has : ∀ a ∈ as, p a = true) (hcs : ∀ c ∈ cs, p c = true)
    (hbs : Stops p bs) (hds : Stops p ds) (h : as ++ bs = cs ++ ds) : as = cs ∧ bs = ds := by
  have hrun : as = cs := by rw [← takeWhile_run has hbs, h, takeWhile_run hcs hds]
  subst hrun
  exact ⟨rfl, List.append_cancel_left h⟩

variable [DecidableEq α]

/-- Two lists are cut at the last occurrence of an element. -/
theorem append_cons_inj_of_notMem_right {x : α} (hbs : x ∉ bs) (hds : x ∉ ds)
    (h : as ++ x :: bs = cs ++ x :: ds) : as = cs ∧ bs = ds := by
  have hrun {l : List α} (hl : x ∉ l) : ∀ a ∈ l.reverse, (a != x) = true := fun a ha =>
    bne_iff_ne.2 fun hax => hl (hax ▸ List.mem_reverse.1 ha)
  have hstop (l : List α) : Stops (· != x) (x :: l) := by simp
  have hreverse : bs.reverse ++ x :: as.reverse = ds.reverse ++ x :: cs.reverse := by
    simpa using congrArg List.reverse h
  obtain ⟨hright, hleft⟩ :=
    run_append_inj (hrun hbs) (hrun hds) (hstop as.reverse) (hstop cs.reverse) hreverse
  exact ⟨List.reverse_injective (List.cons.inj hleft).2, List.reverse_injective hright⟩

end Runs

/-! ### Lists of texts -/

section Intercalate
variable {α : Type}

theorem intercalate_cons (sep x : List α) (xs : List (List α)) :
    sep.intercalate (x :: xs) = x ++ xs.flatMap (sep ++ ·) := by
  induction xs generalizing x with
  | nil => simp
  | cons y xs ih => simp [List.intercalate_cons_cons, ih]

theorem mem_intercalate {sep : List α} {xs : List (List α)} {a : α}
    (h : a ∈ sep.intercalate xs) : a ∈ sep ∨ ∃ x ∈ xs, a ∈ x := by
  cases xs with
  | nil => simp at h
  | cons x xs =>
    rw [intercalate_cons, List.mem_append, List.mem_flatMap] at h
    obtain hx | ⟨y, hy, ha⟩ := h
    · exact .inr ⟨x, List.mem_cons_self, hx⟩
    · exact (List.mem_append.1 ha).imp_right fun ha => ⟨y, List.mem_cons_of_mem x hy, ha⟩

theorem intercalate_eq_nil {sep : List α} {xs : List (List α)} (hxs : ∀ x ∈ xs, x ≠ [])
    (h : sep.intercalate xs = []) : xs = [] := by
  cases xs with
  | nil => rfl
  | cons x xs =>
    rw [intercalate_cons] at h
    exact absurd (List.append_eq_nil_iff.1 h).1 (hxs x List.mem_cons_self)

variable [DecidableEq α] {c : α} {sep : List α}

/-- What is left of the separator stays with the entries. -/
theorem splitOn_intercalate_cons {x : List α} {xs : List (List α)} (hsep : c ∉ sep)
    (hxs : ∀ y ∈ x :: xs, c ∉ y) :
    ((c :: sep).intercalate (x :: xs)).splitOn c = x :: xs.map (sep ++ ·) := by
  have hone : (c :: sep).intercalate (x :: xs) = [c].intercalate (x :: xs.map (sep ++ ·)) := by
    rw [intercalate_cons, intercalate_cons, List.flatMap_map]
    rfl
  rw [hone, List.splitOn_intercalate c ?_ (List.cons_ne_nil _ _)]
  intro y hy
  obtain rfl | hy := List.mem_cons.1 hy
  · exact hxs y List.mem_cons_self
  · obtain ⟨z, hz, rfl⟩ := List.mem_map.1 hy
    exact List.not_mem_append hsep (hxs z (List.mem_cons_of_mem x hz))

/-- An entry of a list whose separator begins with the element. -/
structure Entry (c : α) (xs : List α) : Prop where
  ne_nil : xs ≠ []
  notMem : c ∉ xs

/-- A list of entries is read off what it is written as. That none of them is empty tells
the list without entries from those with one. -/
theorem intercalate_inj (hsep : c ∉ sep) {xs ys : List (List α)} (hxs : ∀ x ∈ xs, Entry c x)
    (hys : ∀ y ∈ ys, Entry c y)
    (h : (c :: sep).intercalate xs = (c :: sep).intercalate ys) : xs = ys := by
  cases xs with
  | nil => exact (intercalate_eq_nil (fun y hy => (hys y hy).ne_nil) h.symm).symm
  | cons x xs =>
    cases ys with
    | nil => exact intercalate_eq_nil (fun x hx => (hxs x hx).ne_nil) h
    | cons y ys =>
      have hsplit : x :: xs.map (sep ++ ·) = y :: ys.map (sep ++ ·) := by
        rw [← splitOn_intercalate_cons hsep fun x hx => (hxs x hx).notMem, h,
          splitOn_intercalate_cons hsep fun y hy => (hys y hy).notMem]
      obtain ⟨rfl, hrest⟩ := List.cons.inj hsplit
      rw [(List.map_inj_right fun _ _ => List.append_cancel_left).1 hrest]

end Intercalate

theorem mem_intercalate_texts {sep : String} {xs : List String} {c : Char}
    (h : c ∈ (sep.intercalate xs).toList) : c ∈ sep.toList ∨ ∃ x ∈ xs, c ∈ x.toList := by
  rw [String.toList_intercalate] at h
  refine (mem_intercalate h).imp_right ?_
  rintro ⟨l, hl, hc⟩
  obtain ⟨x, hx, rfl⟩ := List.mem_map.1 hl
  exact ⟨x, hx, hc⟩

theorem intercalate_texts_inj {c : Char} {cs : List Char} {sep : String}
    (hsep : sep.toList = c :: cs) (hcs : c ∉ cs) {xs ys : List String}
    (hxs : ∀ x ∈ xs, Entry c x.toList) (hys : ∀ y ∈ ys, Entry c y.toList)
    (h : sep.intercalate xs = sep.intercalate ys) : xs = ys := by
  have hentries {zs : List String} (hzs : ∀ z ∈ zs, Entry c z.toList) :
      ∀ l ∈ zs.map String.toList, Entry c l := by
    intro l hl
    obtain ⟨z, hz, rfl⟩ := List.mem_map.1 hl
    exact hzs z hz
  have htext : (c :: cs).intercalate (xs.map String.toList) =
      (c :: cs).intercalate (ys.map String.toList) := by
    rw [← hsep, ← String.toList_intercalate, h, String.toList_intercalate]
  exact (List.map_inj_right fun _ _ => String.toList_inj.1).1
    (intercalate_inj hcs (hentries hxs) (hentries hys) htext)

/-! ### Numbers -/

/-- The characters of which numbers are written. -/
def numeral (c : Char) : Bool := c == '-' || c.isDigit

theorem numeral_of_mem_nat {n : Nat} {c : Char} (h : c ∈ (toString n).toList) :
    numeral c = true := by
  have hdigit : c.isDigit = true := Nat.isDigit_of_mem_toDigits (by decide) (by decide)
    (Nat.toList_repr ▸ h)
  simp [numeral, hdigit]

theorem numeral_of_mem {x : Int} {c : Char} (h : c ∈ (toString x).toList) : numeral c = true := by
  rw [Int.toString_eq_repr, Int.repr_eq_if] at h
  split at h
  · exact numeral_of_mem_nat h
  · obtain hc | hc := List.mem_append.1 (String.toList_append ▸ h)
    · rw [List.mem_singleton.1 hc]
      rfl
    · exact numeral_of_mem_nat hc

theorem toString_nat_inj {m n : Nat} : toString m = toString n ↔ m = n := by
  have hvalue (k : Nat) : Nat.ofDigitChars 10 (toString k).toList 0 = k := by
    rw [Nat.toString_eq_repr, Nat.toList_repr, Nat.ofDigitChars_ten_toDigits]
  refine ⟨fun h => ?_, congrArg toString⟩
  rw [← hvalue m, h, hvalue]

theorem toString_int_inj {x y : Int} : toString x = toString y ↔ x = y := by
  have hsign (m n : Nat) : toString m ≠ "-" ++ toString n := by
    intro h
    have hmem : '-' ∈ (toString m).toList := by simp [h]
    rw [Nat.toString_eq_repr, Nat.toList_repr] at hmem
    exact absurd (Nat.isDigit_of_mem_toDigits (by decide) (by decide) hmem) (by decide)
  refine ⟨fun h => ?_, congrArg toString⟩
  rw [Int.toString_eq_repr, Int.toString_eq_repr, Int.repr_eq_if, Int.repr_eq_if] at h
  by_cases hx : 0 ≤ x <;> by_cases hy : 0 ≤ y <;> simp only [hx, hy, if_true, if_false] at h
  · have := toString_nat_inj.1 h
    omega
  · exact absurd h (hsign _ _)
  · exact absurd h.symm (hsign _ _)
  · have := toString_nat_inj.1 ((String.append_right_inj "-").1 h)
    omega

theorem toList_toString_ne_nil (x : Int) : (toString x).toList ≠ [] := by
  rw [Int.toString_eq_repr, Int.repr_eq_if]
  split
  · exact Nat.toList_repr ▸ Nat.toDigits_ne_nil
  · simp

/-- What does not begin with a character of a number begins with no number. -/
theorem toList_toString_append_ne {x : Int} {s t : List Char} {c : Char} (hc : numeral c = false) :
    (toString x).toList ++ s ≠ c :: t := by
  intro h
  obtain ⟨d, ds, hx⟩ := List.exists_cons_of_ne_nil (toList_toString_ne_nil x)
  have hd : numeral d = true := numeral_of_mem (hx ▸ List.mem_cons_self)
  rw [hx] at h
  rw [(List.cons.inj h).1, hc] at hd
  contradiction

/-! ### Delimited texts -/

/-- A longer text begins with the text of one value only, and it is plain where that ends, if
it does not go on with a character of the class. -/
def Delimited {α : Type} (p : Char → Bool) (text : α → String) (a : α) : Prop :=
  ∀ ⦃b : α⦄ ⦃s t : List Char⦄, Stops p s → Stops p t →
    (text a).toList ++ s = (text b).toList ++ t → a = b ∧ s = t

theorem delimited_int (x : Int) : Delimited numeral (fun x : Int => toString x) x := by
  intro y s t hs ht h
  obtain ⟨hxy, hst⟩ := run_append_inj (fun _ => numeral_of_mem) (fun _ => numeral_of_mem) hs ht h
  exact ⟨toString_int_inj.1 (String.toList_inj.1 hxy), hst⟩

theorem delimited_nat (n : Nat) : Delimited numeral (fun n : Nat => toString n) n := by
  have hcast (m : Nat) : toString m = toString (m : Int) := rfl
  intro m s t hs ht h
  simp only [hcast] at h
  exact (delimited_int n hs ht h).imp_left Int.ofNat.inj

end DiceNotation.Text
