import LoxLang.Decimal.Reading
import LoxLang.Diagnostic

/-!
# Cutting a program into tokens

A program text is cut from left to right into pieces (`pieces`), none of which is empty: tokens,
gaps (blanks, line feeds and comments), single characters that start no token, and a string without
an end. `shapeAt` decides from the first character what a piece is and how far it reaches. Nothing
is lost: the texts of the pieces, put together, are the program.

`scan` then numbers the lines. A piece is reported on, and a token placed on, the line where it
ends.
-/

namespace LoxLang

/-- The letters of names. -/
def isAlpha (c : Char) : Bool :=
  ('a' ≤ c && c ≤ 'z') || ('A' ≤ c && c ≤ 'Z') || c = '_'

/-- A character that a word goes on with. -/
def isAlphanumeric (c : Char) : Bool :=
  isAlpha c || Decimal.isDigit c

/-- Between tokens these characters mean nothing. -/
def isBlank (c : Char) : Bool :=
  c = ' ' || c = '\r' || c = '\t' || c = '\n'

namespace Piece

/-- What a piece of a program is. -/
inductive Shape where
  | symbol (kind : Token.Kind)
  | word
  | number
  | string
  | gap
  | unexpected
  | unclosed
deriving DecidableEq, Repr

end Piece

/-- A part of a source text. -/
structure Piece where
  shape : Piece.Shape
  text : List Char
deriving DecidableEq, Repr

namespace Piece

/-- The tokens of one character that start no longer token. -/
def single? : Char → Option Token.Kind
  | '(' => some .leftParen
  | ')' => some .rightParen
  | '{' => some .leftBrace
  | '}' => some .rightBrace
  | ',' => some .comma
  | '.' => some .dot
  | '-' => some .minus
  | '+' => some .plus
  | ';' => some .semicolon
  | '*' => some .star
  | _ => none

/-- The operators that an equals sign may follow: their kind with it, and alone. -/
def paired? : Char → Option (Token.Kind × Token.Kind)
  | '!' => some (.bangEqual, .bang)
  | '=' => some (.equalEqual, .equal)
  | '<' => some (.lessEqual, .less)
  | '>' => some (.greaterEqual, .greater)
  | _ => none

/-- The number of characters up to the end of a block comment, `n` of them already counted. A
comment without an end goes on to the end of the program. -/
def commentLength : List Char → Nat → Nat
  | '*' :: '/' :: _, n => n + 2
  | _ :: rest, n => commentLength rest (n + 1)
  | [], n => n

/-- How many characters from the front on pass the test. -/
def spanLength (p : Char → Bool) (s : List Char) : Nat :=
  (s.takeWhile p).length

/-- The digits after the first one of a number, and its fraction if a digit follows the point. -/
def numberLength (s : List Char) : Nat :=
  let whole := spanLength Decimal.isDigit s
  match s.drop whole with
  | '.' :: rest =>
    match spanLength Decimal.isDigit rest with
    | 0 => whole
    | fraction => whole + 1 + fraction
  | _ => whole

/-- The shape of the piece that starts with `c`, and how many characters of `s` belong to it. -/
def shapeAt (c : Char) (s : List Char) : Shape × Nat :=
  match single? c, paired? c with
  | some kind, _ => (.symbol kind, 0)
  | none, some (withEqual, alone) =>
    match s with
    | '=' :: _ => (.symbol withEqual, 1)
    | _ => (.symbol alone, 0)
  | none, none =>
    if c = '/' then
      match s with
      | '/' :: rest => (.gap, 1 + spanLength (· ≠ '\n') rest)
      | '*' :: rest => (.gap, 1 + commentLength rest 0)
      | _ => (.symbol .slash, 0)
    else if isBlank c then (.gap, 0)
    else if c = '"' then
      let inside := spanLength (· ≠ '"') s
      match s.drop inside with
      | [] => (.unclosed, inside)
      | _ => (.string, inside + 1)
    else if Decimal.isDigit c then (.number, numberLength s)
    else if isAlpha c then (.word, spanLength isAlphanumeric s)
    else (.unexpected, 0)

/-- The pieces of a text, the last one first, in front of `done`. -/
def piecesOnto (done : List Piece) : List Char → List Piece
  | [] => done
  | c :: s =>
    let (shape, n) := shapeAt c s
    piecesOnto (⟨shape, c :: s.take n⟩ :: done) (s.drop n)
termination_by s => s.length

/-- The pieces of a program. -/
def pieces (source : List Char) : List Piece :=
  (piecesOnto [] source).reverse

/-- The kind and the value of the token that a piece is. -/
def token? (p : Piece) : Option (Token.Kind × Scalar) :=
  match p.shape with
  | .symbol kind => some (kind, .nil)
  | .word => some (.ofWord (String.ofList p.text), .nil)
  | .number => some (.number, .num (Decimal.pointValue p.text))
  | .string => some (.string, .str (String.ofList (p.text.drop 1).dropLast))
  | _ => none

/-- What is wrong with a piece. -/
def problem? (p : Piece) : Option Problem :=
  match p.shape with
  | .unexpected => some .unexpectedCharacter
  | .unclosed => some .unterminatedString
  | _ => none

/-- The number of line feeds in a piece. -/
def lineFeeds (p : Piece) : Nat :=
  p.text.count '\n'

end Piece

/-- What a scan has found so far, and the line that it has reached. -/
structure Scan where
  line : Int := 1
  tokens : Array Token := #[]
  problems : Array Diagnostic := #[]

namespace Scan

/-- Take one more piece. -/
def add (scan : Scan) (p : Piece) : Scan :=
  let line := scan.line + p.lineFeeds
  let tokens := match p.token? with
    | some (kind, literal) => scan.tokens.push (.ofText kind (String.ofList p.text) literal line)
    | none => scan.tokens
  let problems := match p.problem? with
    | some problem => scan.problems.push (.static (.int line) .nowhere problem)
    | none => scan.problems
  ⟨line, tokens, problems⟩

/-- The tokens found, with the end of the program after them. -/
def finish (scan : Scan) : List Token :=
  (scan.tokens.push (.ofText .eof "" .nil scan.line)).toList

end Scan

/-- The scan of a whole program. -/
def scan (source : String) : Scan :=
  (Piece.pieces source.toList).foldl Scan.add {}

end LoxLang
