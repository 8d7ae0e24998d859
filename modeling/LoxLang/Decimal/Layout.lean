import LoxLang.Decimal.Shortest

/-!
# How a number is written

`Layout` holds the decisions of a decimal format : where the positional form ends, what stands for a
missing fraction, how an exponent looks, and the names of the special values. `Layout.render` writes
a double with the fewest digits that read back.
-/

namespace LoxLang.Decimal

/-- The decisions of a decimal format. -/
structure Layout where
  /-- The least exponent of the first digit that is written positionally. -/
  plainFrom : Int
  /-- The first exponent of the first digit that is not. -/
  plainBelow : Int
  /-- What follows the digits of a positional integer. -/
  wholeTail : String
  /-- The least number of digits of an exponent. -/
  exponentWidth : Nat
  infinity : String
  notANumber : String

/-- The decimal digits of a natural number. -/
def natDigits (n : Nat) : List Char :=
  Nat.toDigits 10 n

/-- So many zeros. -/
def zeros (n : Nat) : List Char :=
  List.replicate n '0'

/-- The digits with a point after the first `point` of them, padded by zeros on either side. -/
def Layout.positional (layout : Layout) (digits : List Char) (point : Int) : List Char :=
  if point ≤ 0 then '0' :: '.' :: zeros (-point).toNat ++ digits
  else if point.toNat < digits.length then
    digits.take point.toNat ++ '.' :: digits.drop point.toNat
  else digits ++ zeros (point.toNat - digits.length) ++ layout.wholeTail.toList

/-- The first digit, a fraction of the others, and an exponent. -/
def Layout.scientific (layout : Layout) (digits : List Char) (exponent : Int) : List Char :=
  let fraction := match digits.drop 1 with
    | [] => []
    | rest => '.' :: rest
  let shown := natDigits exponent.natAbs
  let sign := if exponent < 0 then '-' else '+'
  digits.take 1 ++ fraction ++ 'e' :: sign :: zeros (layout.exponentWidth - shown.length) ++ shown

/-- A decimal, positionally if the exponent of its first digit allows it. -/
def Layout.place (layout : Layout) (d : Digits) : List Char :=
  let digits := natDigits d.digits
  let exponent := d.exponent + digits.length - 1
  if layout.plainFrom ≤ exponent && exponent < layout.plainBelow then
    layout.positional digits (exponent + 1)
  else layout.scientific digits exponent

/-- A double in this layout. Zero is written like an integer, and keeps its sign. -/
def Layout.render (layout : Layout) (x : Float) : String :=
  let bits := x.toBits
  if isSpecial bits && fractionField bits ≠ 0 then layout.notANumber
  else
    let value := Binary.ofBits bits
    let magnitude :=
      if isSpecial bits then layout.infinity.toList
      else if value.mantissa = 0 then layout.place ⟨0, 0⟩
      else layout.place value.shortest
    String.ofList (if isNegative bits then '-' :: magnitude else magnitude)

end LoxLang.Decimal
