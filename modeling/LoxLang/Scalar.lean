import LoxLang.Decimal.Layout

/-!
# Scalars

The data that a program can write down: `nil`, booleans, numbers and strings. Documents may also
hold integers. An integer is data but no number of the language: it can be stored and printed, and
every arithmetic operator refuses it.
-/

namespace LoxLang

/-- The data that a program or a document can write down. -/
inductive Scalar where
  | nil
  | bool (b : Bool)
  | int (n : Int)
  | num (x : Float)
  | str (s : String)
deriving Repr, Inhabited

namespace Scalar

/-- Numbers are positional from four places after the point up to sixteen before it, and keep a zero
fraction. Otherwise they have a signed exponent of at least two digits. -/
def numberLayout : Decimal.Layout where
  plainFrom := -4
  plainBelow := 16
  wholeTail := ".0"
  exponentWidth := 2
  infinity := "inf"
  notANumber := "nan"

/-- A number with its fraction, also where the fraction is zero. -/
def fractionText (x : Float) : String :=
  numberLayout.render x

/-- A number as the language prints it: a whole number by all its digits, any other number with its
fraction. Zero keeps its sign. -/
def numberText (x : Float) : String :=
  let bits := x.toBits
  if Decimal.isSpecial bits then fractionText x
  else
    match (Decimal.Binary.ofBits bits).natural? with
    | some n =>
      let digits := Decimal.natDigits n
      String.ofList (if Decimal.isNegative bits then '-' :: digits else digits)
    | none => fractionText x

/-- The text that `print` writes. -/
def text : Scalar → String
  | nil => "nil"
  | bool true => "true"
  | bool false => "false"
  | int n => toString n
  | num x => numberText x
  | str s => s

/-- The spelling of a scalar in diagnostics and in the text of a token. -/
def spelling : Scalar → String
  | nil => "None"
  | bool true => "True"
  | bool false => "False"
  | int n => toString n
  | num x => fractionText x
  | str s => s

/-- The type of a value, in the words of the trace. -/
def typeName : Scalar → String
  | nil => "nil"
  | bool _ => "boolean"
  | int _ => "int"
  | num _ => "number"
  | str _ => "string"

/-- Only `nil` and `false` are false. -/
def truthy : Scalar → Bool
  | nil => false
  | bool b => b
  | _ => true

/-- A number of the language, which is a double. -/
def isNumber : Scalar → Bool
  | num _ => true
  | _ => false

/-! ## Equality -/

/-- Equality of the language: scalars of different kinds differ, and numbers compare as doubles. -/
def equal : Scalar → Scalar → Bool
  | nil, nil => true
  | bool a, bool b => a == b
  | int a, int b => a == b
  | num a, num b => a == b
  | str a, str b => a == b
  | _, _ => false

/-- What scalars that agree have in common. -/
inductive Key where
  | nil
  | whole (n : Int)
  /-- A double that is no whole number. -/
  | other (bits : UInt64)
  | text (s : String)
deriving DecidableEq, Repr

/-- The key of a number. -/
def numberKey? (x : Float) : Option Key :=
  let bits := x.toBits
  if Decimal.isSpecial bits then
    if Decimal.fractionField bits = 0 then some (.other bits) else none
  else
    match (Decimal.Binary.ofBits bits).natural? with
    | some n => some (.whole (if Decimal.isNegative bits then -n else n))
    | none => some (.other bits)

/-- The key of a scalar. A boolean counts as zero or one. What is not a number has no key. -/
def key? : Scalar → Option Key
  | nil => some .nil
  | bool b => some (.whole (if b then 1 else 0))
  | int n => some (.whole n)
  | num x => numberKey? x
  | str s => some (.text s)

/-- Equality of data: texts agree with texts, and booleans, integers and numbers by their value. -/
def agrees : Scalar → Scalar → Bool
  | str s, str t => s == t
  | a, b =>
    match a.key?, b.key? with
    | some k, some l => k = l
    | _, _ => false

theorem agrees_iff {a b : Scalar} : a.agrees b ↔ ∃ k, a.key? = some k ∧ b.key? = some k := by
  unfold agrees
  split
  · simp only [key?, beq_iff_eq, Option.some.injEq, exists_eq_left', Key.text.injEq]
    exact eq_comm
  · cases a.key? <;> cases b.key? <;> simp [eq_comm]

theorem agrees_symm {a b : Scalar} (h : a.agrees b) : b.agrees a := by
  obtain ⟨k, ha, hb⟩ := agrees_iff.1 h
  exact agrees_iff.2 ⟨k, hb, ha⟩

theorem agrees_trans {a b c : Scalar} (h : a.agrees b) (h' : b.agrees c) : a.agrees c := by
  obtain ⟨k, ha, hb⟩ := agrees_iff.1 h
  obtain ⟨l, hb', hc⟩ := agrees_iff.1 h'
  cases Option.some.inj (hb.symm.trans hb')
  exact agrees_iff.2 ⟨k, ha, hc⟩

end Scalar

end LoxLang
