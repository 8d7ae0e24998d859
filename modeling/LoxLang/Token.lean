import LoxLang.Json.Spelling

/-!
# Tokens

A token has a kind, the text it was cut from, the value it stands for if it is a number or a string,
and the line on which it ends. In a token of a document each of the last three can be any datum, and
no walk looks at it before it needs it.
-/

namespace LoxLang

/-- The kinds of tokens. -/
inductive Token.Kind where
  | leftParen | rightParen | leftBrace | rightBrace
  | comma | dot | minus | plus | semicolon | slash | star
  | bang | bangEqual | equal | equalEqual | greater | greaterEqual | less | lessEqual
  | identifier | string | number
  | kwAnd | kwClass | kwElse | kwFalse | kwFun | kwFor | kwIf | kwNil | kwOr
  | kwPrint | kwReturn | kwSuper | kwThis | kwTrue | kwVar | kwWhile
  | eof
deriving DecidableEq, Repr, Inhabited

namespace Token.Kind

/-- The kinds in their customary order. -/
def all : List Kind :=
  [leftParen, rightParen, leftBrace, rightBrace, comma, dot, minus, plus, semicolon, slash, star,
    bang, bangEqual, equal, equalEqual, greater, greaterEqual, less, lessEqual,
    identifier, string, number,
    kwAnd, kwClass, kwElse, kwFalse, kwFun, kwFor, kwIf, kwNil, kwOr,
    kwPrint, kwReturn, kwSuper, kwThis, kwTrue, kwVar, kwWhile, eof]

/-- The name of a kind in a document. -/
def name : Kind → String
  | leftParen => "LEFT_PAREN"
  | rightParen => "RIGHT_PAREN"
  | leftBrace => "LEFT_BRACE"
  | rightBrace => "RIGHT_BRACE"
  | comma => "COMMA"
  | dot => "DOT"
  | minus => "MINUS"
  | plus => "PLUS"
  | semicolon => "SEMICOLON"
  | slash => "SLASH"
  | star => "STAR"
  | bang => "BANG"
  | bangEqual => "BANG_EQUAL"
  | equal => "EQUAL"
  | equalEqual => "EQUAL_EQUAL"
  | greater => "GREATER"
  | greaterEqual => "GREATER_EQUAL"
  | less => "LESS"
  | lessEqual => "LESS_EQUAL"
  | identifier => "IDENTIFIER"
  | string => "STRING"
  | number => "NUMBER"
  | kwAnd => "AND"
  | kwClass => "CLASS"
  | kwElse => "ELSE"
  | kwFalse => "FALSE"
  | kwFun => "FUN"
  | kwFor => "FOR"
  | kwIf => "IF"
  | kwNil => "NIL"
  | kwOr => "OR"
  | kwPrint => "PRINT"
  | kwReturn => "RETURN"
  | kwSuper => "SUPER"
  | kwThis => "THIS"
  | kwTrue => "TRUE"
  | kwVar => "VAR"
  | kwWhile => "WHILE"
  | eof => "EOF"

/-- The kind of a given name. -/
def ofName? (s : String) : Option Kind :=
  all.find? fun k => k.name == s

/-- The place of a kind in the customary order, counted from one. -/
def rank (k : Kind) : Nat :=
  all.idxOf k + 1

/-- The words that are no identifiers. -/
def keywords : List (String × Kind) :=
  [("and", kwAnd), ("class", kwClass), ("else", kwElse), ("false", kwFalse), ("for", kwFor),
    ("fun", kwFun), ("if", kwIf), ("nil", kwNil), ("or", kwOr), ("print", kwPrint),
    ("return", kwReturn), ("super", kwSuper), ("this", kwThis), ("true", kwTrue), ("var", kwVar),
    ("while", kwWhile)]

/-- The kind of a word. -/
def ofWord (s : String) : Kind :=
  (keywords.lookup s).getD identifier

end Token.Kind

/-- A token. In a document its parts can be any data. -/
structure Token where
  kind : Token.Kind
  lexeme : Json
  literal : Json
  line : Json
deriving Repr, Inhabited

namespace Token

/-- A token that was cut from a program. -/
def ofText (kind : Kind) (text : String) (value : Scalar) (line : Int) : Token :=
  ⟨kind, .str text, .scalar value, .int line⟩

/-- A token in one line: its kind, its text, and the value it stands for. -/
def text (t : Token) : String :=
  t.kind.name ++ " " ++ t.lexeme.spelling ++ " " ++ t.literal.spelling

end Token

end LoxLang
