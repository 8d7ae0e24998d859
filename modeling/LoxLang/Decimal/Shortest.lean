/-!
# The fewest digits that read back

A finite double is a natural number times a power of two (`Binary`), and the reals that round to it
form an interval around it. `Binary.shortest` walks grids of powers of ten from coarse to fine and
takes the first one on which a neighbour of the value lies in that interval (`Binary.covers`). All
comparisons are between natural numbers, so nothing is rounded on the way.
-/

namespace LoxLang.Decimal

/-- The value `mantissa * 2 ^ exponent` of a finite double, its sign left out. -/
structure Binary where
  mantissa : Nat
  exponent : Int
  /-- The double below is half as far away as the double above. -/
  crowded : Bool
deriving DecidableEq, Repr

/-- The decimal `digits * 10 ^ exponent`. -/
structure Digits where
  digits : Nat
  exponent : Int
deriving DecidableEq, Repr

/-- The power of two, which is one for a negative exponent. -/
def twos (exponent : Int) : Nat :=
  Nat.pow 2 exponent.toNat

/-- The power of ten, which is one for a negative exponent. -/
def tens (exponent : Int) : Nat :=
  Nat.pow 10 exponent.toNat

/-- The biased exponent of a double. -/
def exponentField (bits : UInt64) : Nat :=
  ((bits >>> 52) &&& 0x7ff).toNat

/-- The lower 52 bits. -/
def fractionField (bits : UInt64) : Nat :=
  (bits &&& 0xfffffffffffff).toNat

/-- The sign bit is set. -/
def isNegative (bits : UInt64) : Bool :=
  (bits >>> 63) == 1

/-- The bits of an infinity or of a value that is no number. -/
def isSpecial (bits : UInt64) : Bool :=
  exponentField bits == 0x7ff

/-- The magnitude of a double that is not special. -/
def Binary.ofBits (bits : UInt64) : Binary :=
  let e := exponentField bits
  let f := fractionField bits
  if e = 0 then ⟨f, -1074, false⟩
  else ⟨0x10000000000000 + f, (e : Int) - 1075, f == 0 && e > 1⟩

/-- The value as an exact quotient of naturals. -/
def Binary.ratio (x : Binary) : Nat × Nat :=
  (x.mantissa * twos x.exponent, twos (-x.exponent))

/-- The natural number that the value is, if it is one. -/
def Binary.natural? (x : Binary) : Option Nat :=
  let (num, den) := x.ratio
  if num % den = 0 then some (num / den) else none

/-- Compare `a * 10 ^ i` with `n * 2 ^ j`. -/
def compareScaled (a : Nat) (i : Int) (n : Nat) (j : Int) : Ordering :=
  compare (a * tens i * twos (-j)) (n * twos j * tens (-i))

/-- `d` is one of the reals that round to `x` : it lies between the midpoints to the two neighbours,
and on a midpoint only if the mantissa is even. -/
def Binary.covers (x : Binary) (d : Digits) : Bool :=
  let low := if x.crowded then 4 * x.mantissa - 1 else 4 * x.mantissa - 2
  let onLow := compareScaled d.digits d.exponent low (x.exponent - 2)
  let onHigh := compareScaled d.digits d.exponent (4 * x.mantissa + 2) (x.exponent - 2)
  let closed := x.mantissa % 2 == 0
  (onLow == .gt || (closed && onLow == .eq)) && (onHigh == .lt || (closed && onHigh == .eq))

/-- The value divided by `10 ^ grid`, as an exact quotient of naturals. -/
def Binary.onGrid (x : Binary) (grid : Int) : Nat × Nat :=
  let (num, den) := x.ratio
  (num * tens (-grid), den * tens grid)

/-- The least `k` with the value below `10 ^ k`, searched in the four steps around an estimate by
the number of binary digits. -/
def Binary.magnitude (x : Binary) : Int :=
  let bits := (x.mantissa.log2 : Int) + x.exponent
  let guess := bits * 30103 / 100000
  let below (k : Int) : Bool := compareScaled 1 k x.mantissa x.exponent == .gt
  if below (guess - 1) then guess - 1
  else if below guess then guess
  else if below (guess + 1) then guess + 1
  else guess + 2

/-- The neighbour of the value on a grid that reads back, the nearer one if both do, and of two
equally near ones the even one. -/
def Binary.onGrid? (x : Binary) (grid : Int) : Option Digits :=
  let (num, den) := x.onGrid grid
  let down : Digits := ⟨num / den, grid⟩
  let up : Digits := ⟨num / den + 1, grid⟩
  match x.covers down, x.covers up with
  | false, false => none
  | true, false => some down
  | false, true => some up
  | true, true =>
    match compare (2 * (num % den)) den with
    | .lt => some down
    | .gt => some up
    | .eq => some (if down.digits % 2 = 0 then down else up)

/-- The same decimal without zeros at the end of its digits, of which at most `fuel` are dropped. -/
def Digits.strip : Nat → Digits → Digits
  | 0, d => d
  | fuel + 1, d =>
    if d.digits % 10 = 0 && d.digits ≠ 0 then Digits.strip fuel ⟨d.digits / 10, d.exponent + 1⟩ else d

/-- The fewest digits that read back to a value other than zero. Seventeen always suffice. -/
def Binary.shortest (x : Binary) : Digits :=
  let k := x.magnitude
  let found := (List.range 17).findSome? fun n => x.onGrid? (k - (n + 1 : Nat))
  (found.getD ⟨x.mantissa * Nat.pow 5 (-x.exponent).toNat * twos x.exponent, min x.exponent 0⟩).strip 800

end LoxLang.Decimal
