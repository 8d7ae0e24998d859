import LoxLang.Json.Spelling

/-!
# Names

What scopes, objects and classes bind. A program names things by texts, and a document may use any
scalar. Two names are the same (`==`) if their scalars agree as data, so `1` and `true` are one
name, and `1` and `"1"` are two.

`Name.sorted?` puts names in order. Texts can be compared with texts and numbers with numbers, and
names of different kinds cannot be put in order.
-/

namespace LoxLang

/-- What scopes, objects and classes bind. -/
structure Name where
  datum : Scalar
deriving Repr, Inhabited

namespace Name

/-- A text as a name. -/
def ofText (s : String) : Name := ⟨.str s⟩

/-- A text stands for its name. -/
instance : Coe String Name := ⟨ofText⟩

/-- Two names are the same if their scalars agree. -/
instance : BEq Name := ⟨fun a b => a.datum.agrees b.datum⟩

/-- Sameness of names is not reflexive: a scalar that is not a number agrees with nothing. -/
instance : PartialEquivBEq Name where
  symm := Scalar.agrees_symm
  trans := Scalar.agrees_trans

theorem ofText_beq (s t : String) : (ofText s == ofText t) = (s == t) := by
  simp [BEq.beq, ofText, Scalar.agrees]

/-- A name in a diagnostic. -/
def text (n : Name) : String := n.datum.spelling

/-- A name in a list of names. -/
def shown (n : Name) : String := n.datum.shown

/-! ## Order -/

/-- A number as an exact quotient, whose denominator is zero for an infinity. -/
structure Quotient where
  numerator : Int
  denominator : Nat
deriving DecidableEq, Repr

/-- The order of quotients, with the infinities at its ends. -/
def Quotient.le (a b : Quotient) : Bool :=
  if a.denominator = 0 && b.denominator = 0 then a.numerator ≤ b.numerator
  else a.numerator * b.denominator ≤ b.numerator * a.denominator

/-- A number as a quotient. -/
def quotientOf (x : Float) : Quotient :=
  let bits := x.toBits
  let sign : Int := if Decimal.isNegative bits then -1 else 1
  if Decimal.isSpecial bits then ⟨sign, 0⟩
  else
    let (numerator, denominator) := (Decimal.Binary.ofBits bits).ratio
    ⟨sign * numerator, denominator⟩

/-- The number that a name counts as. -/
def quotient? (n : Name) : Option Quotient :=
  match n.datum with
  | .bool b => some ⟨if b then 1 else 0, 1⟩
  | .int n => some ⟨n, 1⟩
  | .num x => some (quotientOf x)
  | _ => none

/-- The characters of a name that is a text. -/
def characters? (n : Name) : Option (List Char) :=
  match n.datum with
  | .str s => some s.toList
  | _ => none

/-- Items in the order of their keys, if all have one. -/
def sortedBy? {κ : Type} (le : κ → κ → Bool) (key? : Name → Option κ) (names : List Name) :
    Option (List Name) :=
  let keyed := names.filterMap fun name => (key? name).map (·, name)
  if keyed.length = names.length then
    some ((keyed.mergeSort fun a b => le a.1 b.1).map Prod.snd)
  else none

/-- Names in order, if they can be compared. A name on its own is in order. -/
def sorted? (names : List Name) : Option (List Name) :=
  if names.length ≤ 1 then some names
  else (sortedBy? Text.precedes characters? names).orElse fun _ =>
    sortedBy? Quotient.le quotient? names

end Name

end LoxLang
