import LoxLang.Json
import LoxLang.Text.Quoted

/-!
# Writing documents

A document is written on one line (`Json.compact`) or with an indentation of two blanks for each
level (`Json.indented`). Strings escape the quote, the backslash and the controls below U+0020, and
nothing else. Both writers add to the end of a text, so that the work is in proportion to the
output.
-/

namespace LoxLang.Json

/-- Numbers look as in the language, but for the names of the values that are not finite. -/
def numberLayout : Decimal.Layout :=
  { Scalar.numberLayout with infinity := "Infinity", notANumber := "NaN" }

/-- A character as it stands in a text in quotes. -/
def escapeChar (c : Char) : List Char :=
  if c = '"' || c = '\\' then ['\\', c]
  else if c = '\n' then ['\\', 'n']
  else if c = '\r' then ['\\', 'r']
  else if c = '\t' then ['\\', 't']
  else if c.toNat = 8 then ['\\', 'b']
  else if c.toNat = 12 then ['\\', 'f']
  else if c.toNat < 0x20 then '\\' :: 'u' :: Text.hexDigits 4 c.toNat
  else [c]

/-- A text in quotes, with escapes. -/
def stringText (s : String) : String :=
  String.ofList ('"' :: s.toList.flatMap escapeChar ++ ['"'])

/-- A scalar in a document. -/
def scalarText : Scalar → String
  | .nil => "null"
  | .bool true => "true"
  | .bool false => "false"
  | .int n => toString n
  | .num x => numberLayout.render x
  | .str s => stringText s

mutual

/-- Write a document on one line after `out`. -/
def compactOnto (out : String) : Json → String
  | scalar s => out ++ scalarText s
  | array items => compactItems (out ++ "[") "" items
  | object fields => compactFields (out ++ "\x7b") "" fields

/-- Items with `separator` in front of the first, and the closing bracket. -/
def compactItems (out separator : String) : List Json → String
  | [] => out ++ "]"
  | item :: rest => compactItems (compactOnto (out ++ separator) item) ", " rest

/-- The fields of an object on one line, after `out`, up to its closing brace. -/
def compactFields (out separator : String) : List (String × Json) → String
  | [] => out ++ "\x7d"
  | (key, value) :: rest =>
    compactFields (compactOnto (out ++ separator ++ stringText key ++ ": ") value) ", " rest

end

/-- A document on one line. -/
def compact (json : Json) : String :=
  compactOnto "" json

/-- The start of a line at a level. -/
def newLine (level : Nat) : String :=
  "\n" ++ String.ofList (List.replicate (2 * level) ' ')

mutual

/-- Write a document after `out`, the lines inside it one level further in than `level`. -/
def indentedOnto (level : Nat) (out : String) : Json → String
  | scalar s => out ++ scalarText s
  | array [] => out ++ "[]"
  | array (item :: rest) => indentedItems level (out ++ "[") "" (item :: rest)
  | object [] => out ++ "\x7b\x7d"
  | object (field :: rest) => indentedFields level (out ++ "\x7b") "" (field :: rest)

/-- The items of an array on lines of their own, after `out`, up to its closing bracket. -/
def indentedItems (level : Nat) (out separator : String) : List Json → String
  | [] => out ++ newLine level ++ "]"
  | item :: rest =>
    indentedItems level
      (indentedOnto (level + 1) (out ++ separator ++ newLine (level + 1)) item) "," rest

/-- The fields of an object on lines of their own, after `out`, up to its closing brace. -/
def indentedFields (level : Nat) (out separator : String) : List (String × Json) → String
  | [] => out ++ newLine level ++ "\x7d"
  | (key, value) :: rest =>
    let out := out ++ separator ++ newLine (level + 1) ++ stringText key ++ ": "
    indentedFields level (indentedOnto (level + 1) out value) "," rest

end

/-- A document with one item or field on each line. -/
def indented (json : Json) : String :=
  indentedOnto 0 "" json

end LoxLang.Json
