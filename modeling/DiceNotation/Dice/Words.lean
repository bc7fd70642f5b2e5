import DiceNotation.Dice.Source

/-! Fair dice from uniform 32-bit words, by widening multiplication: the high half
of `word * sides` picks the face, and the words whose low half lies above `zone`
are rejected, which leaves equally many words to every face. Every generator of
words is a source of faces. -/

namespace DiceNotation

/-! ### One word -/

/-- A die prepared for many throws. -/
structure FairDie where
  sides : Sides
  /-- The greatest low half that is accepted. -/
  zone : UInt32
  deriving DecidableEq, Repr

namespace FairDie

def ofSides (sides : Sides) : FairDie :=
  ⟨sides, UInt32.ofNat (UInt32.size - 1 - UInt32.size % sides.toNat)⟩

def product (d : FairDie) (word : UInt32) : UInt64 := word.toUInt64 * d.sides.toUInt32.toUInt64

def Accepts (d : FairDie) (word : UInt32) : Prop := (d.product word).toUInt32 ≤ d.zone

instance (d : FairDie) (word : UInt32) : Decidable (d.Accepts word) :=
  inferInstanceAs (Decidable (_ ≤ _))

def face (d : FairDie) (word : UInt32) : UInt32 := UInt64.toUInt32 (d.product word >>> 32) + 1

end FairDie

/-! ### Generators -/

/-- A generator puts out one word after the other. Once the words `ahead` of it are
put out, a zero follows, which every die accepts. -/
class Generator (γ : Type) where
  next : γ → UInt32 × γ
  ahead : γ → Nat

section Throws
variable {γ : Type} [Generator γ]

namespace FairDie

/-- The face of the first word accepted, if not of the last of `n + 1` words. -/
def throwWithin (d : FairDie) : Nat → γ → UInt32 × γ
  | 0, g =>
    let (word, g) := Generator.next g
    (d.face word, g)
  | n + 1, g =>
    let (word, g) := Generator.next g
    if d.Accepts word then (d.face word, g) else throwWithin d n g

theorem throwWithin_succ (d : FairDie) (n : Nat) (g : γ) :
    d.throwWithin (n + 1) g =
      if d.Accepts (Generator.next g).1 then (d.face (Generator.next g).1, (Generator.next g).2)
      else d.throwWithin n (Generator.next g).2 := rfl

def throw (d : FairDie) (g : γ) : UInt32 × γ := d.throwWithin (Generator.ahead g) g

/-- The faces of `n` throws of one die. -/
def throws (d : FairDie) : Nat → γ → List UInt32 × γ
  | 0, g => ([], g)
  | n + 1, g =>
    let (face, g) := d.throw g
    let (faces, g) := throws d n g
    (face :: faces, g)

end FairDie

namespace Generator

def roll (sides : Sides) : Draw γ UInt32 := fun g =>
  let (face, g) := (FairDie.ofSides sides).throw g
  (.ok face, g)

def rollMany (count : Nat) (sides : Sides) : Draw γ (List UInt32) := fun g =>
  let (faces, g) := (FairDie.ofSides sides).throws count g
  (.ok faces, g)

instance (priority := low) : Source γ := { roll, rollMany }

end Generator

end Throws

/-! ### A stream of words -/

/-- A generator that puts out the words in order, and zero for ever after them. -/
structure Words where
  upcoming : List UInt32
  deriving DecidableEq, Repr

def Words.next : Words → UInt32 × Words
  | ⟨[]⟩ => (0, ⟨[]⟩)
  | ⟨word :: words⟩ => (word, ⟨words⟩)

instance : Generator Words where
  next := Words.next
  ahead words := words.upcoming.length

end DiceNotation
