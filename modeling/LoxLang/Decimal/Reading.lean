/-!
# Reading decimal numbers

A numeral is an optional minus sign, digits, an optional fraction and an optional exponent. It is
read as the double nearest to it.
-/

namespace LoxLang.Decimal

/-- An ASCII digit. -/
def isDigit (c : Char) : Bool :=
  '0' ≤ c && c ≤ '9'

/-- The natural number that a list of digits stands for. -/
def natValue (digits : List Char) : Nat :=
  digits.foldl (fun n c => 10 * n + (c.toNat - '0'.toNat)) 0

/-- The double nearest to `digits * 10 ^ exponent`, where `count` is the number of digits written.
Beyond four hundred places on either side of the point the answer is an infinity or zero. -/
def nearest (digits count : Nat) (exponent : Int) : Float :=
  if digits = 0 || exponent + count < -400 then 0
  else if 400 < exponent then 1 / 0
  else Float.ofScientific digits (exponent < 0) exponent.natAbs

/-- The parts of a numeral : its sign, the digits before and after the point, its exponent. A
missing fraction or exponent is `none`. -/
structure Numeral where
  negative : Bool
  whole : List Char
  fraction : Option (List Char)
  exponent : Option Int

/-- Digits, of which there must be one. -/
def takeDigits (s : List Char) : Option (List Char × List Char) :=
  match s.takeWhile isDigit with
  | [] => none
  | digits => some (digits, s.dropWhile isDigit)

/-- The fraction at the start of a text : a point with digits after it. -/
def takeFraction : List Char → Option (List Char) × List Char
  | '.' :: rest =>
    match takeDigits rest with
    | some (digits, rest) => (some digits, rest)
    | none => (none, '.' :: rest)
  | s => (none, s)

/-- The exponent at the start of a text : the letter e, an optional sign, and digits. -/
def takeExponent (s : List Char) : Option Int × List Char :=
  match s with
  | c :: rest =>
    if c = 'e' || c = 'E' then
      let (negative, digits?) := match rest with
        | '-' :: rest => (true, takeDigits rest)
        | '+' :: rest => (false, takeDigits rest)
        | rest => (false, takeDigits rest)
      match digits? with
      | some (digits, rest) =>
        let n : Int := natValue digits
        (some (if negative then -n else n), rest)
      | none => (none, s)
    else (none, s)
  | [] => (none, s)

/-- The numeral at the start of a text, and what follows it. -/
def Numeral.take (s : List Char) : Option (Numeral × List Char) :=
  let (negative, s) := match s with
    | '-' :: rest => (true, rest)
    | s => (false, s)
  match takeDigits s with
  | none => none
  | some (whole, s) =>
    let (fraction, s) := takeFraction s
    let (exponent, s) := takeExponent s
    some (⟨negative, whole, fraction, exponent⟩, s)

/-- The double nearest to a numeral. -/
def Numeral.value (n : Numeral) : Float :=
  let fraction := n.fraction.getD []
  let digits := n.whole ++ fraction
  let magnitude := nearest (natValue digits) digits.length (n.exponent.getD 0 - fraction.length)
  if n.negative then -magnitude else magnitude

/-- The double nearest to digits with at most a point among them. -/
def pointValue (s : List Char) : Float :=
  Numeral.value ⟨false, s.takeWhile isDigit, some ((s.dropWhile isDigit).drop 1), none⟩

/-- A text that is one numeral, or the name of an infinity or of the value that is no number. -/
def read? (s : String) : Option Float :=
  match s with
  | "inf" => some (1 / 0)
  | "-inf" => some (-(1 / 0))
  | "nan" => some (0 / 0)
  | s =>
    match Numeral.take s.toList with
    | some (n, []) => some n.value
    | _ => none

end LoxLang.Decimal
