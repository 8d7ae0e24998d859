import LoxLang.Tree

/-!
# Trees as text

Expressions and statements in parentheses, operator first. A statement that could not be parsed is
shown as `<error>`. A text in the slot of an expression is shown as it is.

A name on its own shows as the datum that its token holds. That is a text in every tree of the
parser, and a larger tree can only be put together from texts. Every pair of parentheses is two
levels deep.
-/

namespace LoxLang.Tree

/-! ## Trees as data

A literal can hold any tree, and shows it with all its slots by name. -/

/-- A token as a record. -/
def tokenData (t : Token) : String :=
  "Token(type=<TokenType." ++ t.kind.name ++ ": " ++ toString t.kind.rank ++ ">, lexeme=" ++
    t.lexeme.shown ++ ", literal=" ++ t.literal.shown ++ ", line=" ++ t.line.shown ++ ")"

/-- A form with what its slots hold. -/
def formData (form : Form) (slots : List String) : String :=
  let shown := form.slots.zipWith (fun name value => name ++ "=" ++ value) slots
  form.name ++ "(" ++ ", ".intercalate shown ++ ")"

mutual

/-- A tree as data. -/
def data : Tree → String
  | scalar s => s.shown
  | list items => "[" ++ ", ".intercalate (datas items) ++ "]"
  | token t => tokenData t
  | object fields => (Json.object fields).shown
  | literal v _ => formData .literal [data v]
  | unary op r => formData .unary [data op, data r]
  | binary l op r => formData .binary [data l, data op, data r]
  | logical l op r => formData .logical [data l, data op, data r]
  | grouping e => formData .grouping [data e]
  | ident n _ => formData .ident [data n]
  | assign n v _ => formData .assign [data n, data v]
  | call c p as => formData .call [data c, data p, data as]
  | getField o n => formData .getField [data o, data n]
  | setField o n v => formData .setField [data o, data n, data v]
  | thisRef k _ => formData .thisRef [data k]
  | superRef k m _ => formData .superRef [data k, data m]
  | exprStmt e => formData .exprStmt [data e]
  | printStmt e => formData .printStmt [data e]
  | varDecl n i => formData .varDecl [data n, data i]
  | block ss => formData .block [data ss]
  | ifElse c t e => formData .ifElse [data c, data t, data e]
  | whileLoop c b => formData .whileLoop [data c, data b]
  | funDecl n ps b => formData .funDecl [data n, data ps, data b]
  | returnStmt k v => formData .returnStmt [data k, data v]
  | classDecl n s ms => formData .classDecl [data n, data s, data ms]

/-- The trees of a list as records. -/
def datas : List Tree → List String
  | [] => []
  | t :: ts => data t :: datas ts

end

/-- The text of a tree that is used as a value. -/
def valueText : Tree → String
  | scalar s => s.text
  | t => t.data

/-! ## Trees as programs -/

/-- The texts that the parts of a tree must be. -/
def textsOf : List Json → Except Fault (List String)
  | [] => .ok []
  | .scalar (.str s) :: rest => do
    let texts ← textsOf rest
    return s :: texts
  | _ :: _ => .error .notText

/-- A head and parts, between parentheses. -/
def inParens (head : Json) (parts : List Json) : Except Fault Json := do
  let texts ← textsOf (head :: parts)
  return .str ("(" ++ " ".intercalate texts ++ ")")

/-- The lexeme of the token in a slot. -/
def lexemeOf (t : Tree) : Except Fault Json :=
  t.asToken.map Token.lexeme

/-- The lexemes in the slots of a list. -/
def lexemesOf : List Tree → Except Fault (List Json)
  | [] => .ok []
  | t :: ts => do
    let head ← t.lexemeOf
    let tail ← lexemesOf ts
    return head :: tail

/-- The parameters of a function, between parentheses. -/
def paramsPart (params : List Json) : Except Fault Json := do
  let texts ← textsOf params
  return .str ("(" ++ " ".intercalate texts ++ ")")

/-- How a lexeme shows as part of a tree. A datum that is no text stands for a tree. -/
def lexemePart : Json → Except Fault Json
  | .scalar (.str s) => .ok (.str s)
  | .scalar .nil => .ok (.str "<error>")
  | json => .error ((ofJson json).misplaced .print)

/-- The name of a class and of its superclass. A list takes the characters after it as items. -/
def classHead (name superclass : Json) : Except Fault Json :=
  match superclass, name with
  | .scalar (.str superclass), .scalar (.str name) => .ok (.str (name ++ " < " ++ superclass))
  | .scalar (.str superclass), .array items =>
    .ok (.array (items ++ (" < " ++ superclass).toList.map fun c => .str (String.singleton c)))
  | _, _ => .error .notText

/-- The text of a literal. A string stands between quotes, and nothing in it is escaped. -/
def literalText : Tree → String
  | scalar (.str s) => "\"" ++ s ++ "\""
  | t => t.valueText

/-- The items of a sequence that is written as a text, each one as it is. -/
def characterParts (s : String) : List Json :=
  s.toList.map fun c => .str (String.singleton c)

/-- How a tree shows as part of one that has `room` levels: a text as it is, any other tree as
`rendered`. -/
def partOf (t : Tree) (room : Nat) (rendered : Except Fault Json) : Except Fault Json :=
  match t with
  | scalar (.str s) => .ok (.str s)
  | _ => if room ≤ 2 then .error .tooDeep else rendered

mutual

/-- A tree as text, with the given number of levels to go down. -/
def render : Tree → Nat → Except Fault Json
  | scalar .nil, _ => .ok (.str "<error>")
  | literal v _, _ => .ok (.str v.literalText)
  | binary l op r, room => do
    let head ← op.lexemeOf
    let left ← partOf l room (render l (room - 2))
    let right ← partOf r room (render r (room - 2))
    inParens head [left, right]
  | logical l op r, room => do
    let head ← op.lexemeOf
    let left ← partOf l room (render l (room - 2))
    let right ← partOf r room (render r (room - 2))
    inParens head [left, right]
  | unary op r, room => do
    let head ← op.lexemeOf
    let right ← partOf r room (render r (room - 2))
    inParens head [right]
  | grouping e, room => do
    let inner ← partOf e room (render e (room - 2))
    inParens (.str "group") [inner]
  | ident n _, _ => n.lexemeOf
  | assign n v _, room => do
    let name ← n.lexemeOf
    let name ← lexemePart name
    let value ← partOf v room (render v (room - 2))
    inParens (.str "=") [name, value]
  | call c _ as, room =>
    match as with
    | list items => do
      let callee ← partOf c room (render c (room - 2))
      let arguments ← renderParts items room
      inParens (.str "call") (callee :: arguments)
    | scalar (.str s) => do
      let callee ← partOf c room (render c (room - 2))
      inParens (.str "call") (callee :: characterParts s)
    | _ => .error .notSequence
  | getField o n, room => do
    let name ← n.lexemeOf
    let object ← partOf o room (render o (room - 2))
    let name ← lexemePart name
    inParens (.str ".") [object, name]
  | setField o n v, room => do
    let name ← n.lexemeOf
    let object ← partOf o room (render o (room - 2))
    let name ← lexemePart name
    let value ← partOf v room (render v (room - 2))
    inParens (.str "=.") [object, name, value]
  | thisRef .., _ => .ok (.str "this")
  | superRef _ m _, _ => do
    let method ← m.lexemeOf
    let method ← lexemePart method
    inParens (.str "super") [method]
  | exprStmt e, room => do
    let inner ← partOf e room (render e (room - 2))
    inParens (.str ";") [inner]
  | printStmt e, room => do
    let inner ← partOf e room (render e (room - 2))
    inParens (.str "print") [inner]
  | varDecl n i, room => do
    let name ← n.lexemeOf
    let name ← lexemePart name
    if i.isNull then inParens (.str "var") [name]
    else do
      let value ← partOf i room (render i (room - 2))
      inParens (.str "var") [name, value]
  | block ss, room =>
    match ss with
    | list items => do
      let statements ← renderParts items room
      inParens (.str "block") statements
    | scalar (.str s) => inParens (.str "block") (characterParts s)
    | _ => .error .notSequence
  | ifElse c t e, room => do
    let condition ← partOf c room (render c (room - 2))
    let thenBranch ← partOf t room (render t (room - 2))
    if e.isNull then inParens (.str "if") [condition, thenBranch]
    else do
      let elseBranch ← partOf e room (render e (room - 2))
      inParens (.str "if") [condition, thenBranch, elseBranch]
  | whileLoop c b, room => do
    let condition ← partOf c room (render c (room - 2))
    let body ← partOf b room (render b (room - 2))
    inParens (.str "while") [condition, body]
  | funDecl n ps b, room => do
    let params ← ps.asItems
    let params ← lexemesOf params
    let params ← paramsPart params
    let name ← n.lexemeOf
    match b with
    | list items => do
      let name ← lexemePart name
      let body ← renderParts items room
      inParens (.str "fun") (name :: params :: body)
    | scalar (.str s) => do
      let name ← lexemePart name
      inParens (.str "fun") (name :: params :: characterParts s)
    | _ => .error .notSequence
  | returnStmt _ v, room =>
    if v.isNull then inParens (.str "return") []
    else do
      let value ← partOf v room (render v (room - 2))
      inParens (.str "return") [value]
  | classDecl n s ms, room => do
    let name ← n.lexemeOf
    let head ← if s.isNull then .ok name else do
      let superclass ← s.nameToken
      classHead name superclass.lexeme
    match ms with
    | list items => do
      let head ← lexemePart head
      let methods ← renderParts items room
      inParens (.str "class") (head :: methods)
    | scalar (.str s) => do
      let head ← lexemePart head
      inParens (.str "class") (head :: characterParts s)
    | _ => .error .notSequence
  | t, _ => .error (t.misplaced .print)

/-- The parts of a list, printed. -/
def renderParts : List Tree → Nat → Except Fault (List Json)
  | [], _ => .ok []
  | t :: ts, room => do
    let head ← partOf t room (render t (room - 2))
    let tail ← renderParts ts room
    return head :: tail

end

/-- A tree as text. -/
def printed (t : Tree) : Except Fault Json :=
  t.render maxDepth

end LoxLang.Tree
