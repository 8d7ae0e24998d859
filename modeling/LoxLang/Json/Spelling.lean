import LoxLang.Json
import LoxLang.Text.Quoted

/-!
# Spelling documents

How a document is spelled in a diagnostic or in a printed value. A text on its own is spelled as it
is, and inside a list or an object it is quoted.
-/

namespace LoxLang

/-- A scalar inside a larger value. -/
def Scalar.shown : Scalar → String
  | .str s => Text.quoted s
  | s => s.spelling

namespace Json

mutual

/-- A document inside a larger value. -/
def shown : Json → String
  | scalar s => s.shown
  | array items => "[" ++ ", ".intercalate (itemsShown items) ++ "]"
  | object fields => "\x7b" ++ ", ".intercalate (fieldsShown fields) ++ "\x7d"

/-- The items of an array, each spelled. -/
def itemsShown : List Json → List String
  | [] => []
  | json :: rest => shown json :: itemsShown rest

/-- The fields of an object, each with its key. -/
def fieldsShown : List (String × Json) → List String
  | [] => []
  | (key, json) :: rest => (Text.quoted key ++ ": " ++ shown json) :: fieldsShown rest

end

/-- A document on its own. -/
def spelling : Json → String
  | scalar s => s.spelling
  | json => json.shown

end Json

end LoxLang
