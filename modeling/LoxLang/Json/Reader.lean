import LoxLang.Decimal.Reading
import LoxLang.Json

/-!
# Reading documents

`Json.read` reads a text that is one document with blanks around it. A number with a fraction or an
exponent is a double, any other number an integer of at most `maxIntegerDigits` digits. The names of
the infinities and of the value that is no number are accepted, and of two fields with one key the
later value counts. Lists and objects can be nested `maxNesting` deep.
-/

namespace LoxLang.Json

/-- Why a text is no document. -/
inductive ReadError where
  | malformed
  | integerTooLong
  | tooDeep
deriving DecidableEq, Repr

/-- An integer with more digits is refused. -/
def maxIntegerDigits : Nat := 4300

/-- A document that is nested more deeply is refused. -/
def maxNesting : Nat := 10000

/-- A text without the blanks at its start. -/
def skipBlanks (s : List Char) : List Char :=
  s.dropWhile fun c => c = ' ' || c = '\t' || c = '\n' || c = '\r'

/-! ## Strings -/

/-- The value of a hexadecimal digit. -/
def hexValue? (c : Char) : Option Nat :=
  if '0' ≤ c && c ≤ '9' then some (c.toNat - '0'.toNat)
  else if 'a' ≤ c && c ≤ 'f' then some (c.toNat - 'a'.toNat + 10)
  else if 'A' ≤ c && c ≤ 'F' then some (c.toNat - 'A'.toNat + 10)
  else none

/-- The value of four hexadecimal digits. -/
def unit? (a b c d : Char) : Option Nat := do
  return (((← hexValue? a) * 16 + (← hexValue? b)) * 16 + (← hexValue? c)) * 16 + (← hexValue? d)

/-- The character that a backslash and a letter stand for. -/
def escape? : Char → Option Nat
  | '"' => some 0x22
  | '\\' => some 0x5c
  | '/' => some 0x2f
  | 'b' => some 8
  | 'f' => some 12
  | 'n' => some 10
  | 'r' => some 13
  | 't' => some 9
  | _ => none

/-- The code points and escaped 16-bit units of a string up to its closing quote, the last one
first, in front of `done`. -/
def takeUnits (done : List Nat) : List Char → Except ReadError (List Nat × List Char)
  | '"' :: rest => .ok (done, rest)
  | '\\' :: 'u' :: a :: b :: c :: d :: rest =>
    match unit? a b c d with
    | some u => takeUnits (u :: done) rest
    | none => .error .malformed
  | '\\' :: c :: rest =>
    match escape? c with
    | some u => takeUnits (u :: done) rest
    | none => .error .malformed
  | c :: rest => if c.toNat < 0x20 then .error .malformed else takeUnits (c.toNat :: done) rest
  | [] => .error .malformed

/-- The first half of a surrogate pair. -/
def isHighSurrogate (u : Nat) : Bool := 0xd800 ≤ u && u < 0xdc00

/-- The second half of a surrogate pair. -/
def isLowSurrogate (u : Nat) : Bool := 0xdc00 ≤ u && u < 0xe000

/-- A code point as a character. A surrogate on its own becomes the replacement character. -/
def charOf (u : Nat) : Char :=
  if isHighSurrogate u || isLowSurrogate u then '�' else Char.ofNat u

/-- The characters of units given last one first, in front of `done`. A high surrogate and a low one
after it are one character. -/
def joinUnits (done : List Char) : List Nat → List Char
  | low :: high :: rest =>
    if isLowSurrogate low && isHighSurrogate high then
      joinUnits (Char.ofNat (0x10000 + (high - 0xd800) * 0x400 + (low - 0xdc00)) :: done) rest
    else joinUnits (charOf low :: done) (high :: rest)
  | [u] => charOf u :: done
  | [] => done

/-- The string whose opening quote has been read. -/
def takeString (s : List Char) : Except ReadError (String × List Char) :=
  match takeUnits [] s with
  | .ok (units, rest) => .ok (String.ofList (joinUnits [] units), rest)
  | .error e => .error e

/-! ## Numbers and words -/

/-- The documents that are written as a word. -/
def words : List (String × Scalar) :=
  [("null", .nil), ("true", .bool true), ("false", .bool false), ("NaN", .num (0 / 0)),
    ("Infinity", .num (1 / 0)), ("-Infinity", .num (-(1 / 0)))]

/-- A document that is written as a word, at the start of a text. -/
def takeWord? (s : List Char) : Option (Scalar × List Char) :=
  words.findSome? fun (word, meaning) =>
    if word.toList.isPrefixOf s then some (meaning, s.drop word.length) else none

/-- A number at the start of a text. Without a fraction and an exponent it is an integer. -/
def takeNumber (s : List Char) : Except ReadError (Scalar × List Char) :=
  match Decimal.Numeral.take s with
  | none => .error .malformed
  | some (n, rest) =>
    if n.whole.head? = some '0' && n.whole.length > 1 then .error .malformed
    else if n.fraction.isSome || n.exponent.isSome then .ok (.num n.value, rest)
    else if n.whole.length > maxIntegerDigits then .error .integerTooLong
    else
      let magnitude : Int := Decimal.natValue n.whole
      .ok (.int (if n.negative then -magnitude else magnitude), rest)

/-- A word or a number at the start of a text. -/
def takeScalar (s : List Char) : Except ReadError (Scalar × List Char) :=
  match takeWord? s with
  | some found => .ok found
  | none => takeNumber s

/-! ## Documents -/

mutual

/-- The document at the start of a text. Each step spends one unit of fuel and reads a character,
and each bracket takes one level of `room`. -/
def takeValue : Nat → Nat → List Char → Except ReadError (Json × List Char)
  | 0, _, _ => .error .malformed
  | fuel + 1, room, s =>
    match s, room with
    | '"' :: rest, _ =>
      match takeString rest with
      | .ok (text, rest) => .ok (.str text, rest)
      | .error e => .error e
    | '[' :: rest, room + 1 =>
      match skipBlanks rest with
      | ']' :: rest => .ok (.array [], rest)
      | rest => takeItems fuel room [] rest
    | '{' :: rest, room + 1 =>
      match skipBlanks rest with
      | '}' :: rest => .ok (.object [], rest)
      | rest => takeFields fuel room [] rest
    | '[' :: _, 0 | '{' :: _, 0 => .error .tooDeep
    | s, _ =>
      match takeScalar s with
      | .ok (found, rest) => .ok (.scalar found, rest)
      | .error e => .error e

/-- The items that are left of an array, after those in `done`, which are held last one first. -/
def takeItems : Nat → Nat → List Json → List Char → Except ReadError (Json × List Char)
  | 0, _, _, _ => .error .malformed
  | fuel + 1, room, done, s =>
    match takeValue fuel room s with
    | .error e => .error e
    | .ok (item, rest) =>
      match skipBlanks rest with
      | ']' :: rest => .ok (.array (item :: done).reverse, rest)
      | ',' :: rest => takeItems fuel room (item :: done) (skipBlanks rest)
      | _ => .error .malformed

/-- The fields that are left of an object, after those in `done`. -/
def takeFields : Nat → Nat → List (String × Json) → List Char → Except ReadError (Json × List Char)
  | 0, _, _, _ => .error .malformed
  | fuel + 1, room, done, s =>
    match s with
    | '"' :: rest =>
      match takeString rest with
      | .error e => .error e
      | .ok (key, rest) =>
        match skipBlanks rest with
        | ':' :: rest =>
          match takeValue fuel room (skipBlanks rest) with
          | .error e => .error e
          | .ok (value, rest) =>
            let done := Bindings.setEntry key value done
            match skipBlanks rest with
            | '}' :: rest => .ok (.object done, rest)
            | ',' :: rest => takeFields fuel room done (skipBlanks rest)
            | _ => .error .malformed
        | _ => .error .malformed
    | _ => .error .malformed

end

/-- The document that a text holds. -/
def read (text : String) : Except ReadError Json :=
  let s := text.toList
  match takeValue (s.length + 1) maxNesting (skipBlanks s) with
  | .error e => .error e
  | .ok (json, rest) => if (skipBlanks rest).isEmpty then .ok json else .error .malformed

end LoxLang.Json
