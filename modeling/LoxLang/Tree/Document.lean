import LoxLang.Tree

/-!
# Trees as documents

`dump` writes a tree as a JSON document and `load` reads one. A form is an object with the name of
the form and one field for each slot, a token an object with four fields of its own, and lists and
scalars are themselves. Fields that a form has no slot for are not looked at, and a slot without a
field is null. The depths of a resolved tree and the serial numbers of literals are not part of its
document.
-/

namespace LoxLang.Tree

/-- Why a document is no tree. -/
inductive LoadError where
  /-- A kind of tokens that does not exist, or a token without one of its fields. -/
  | badToken
  /-- A list or an object where the name of a form or of a kind of tokens should be. -/
  | nameNotScalar
  /-- A name of a form that does not exist, as a diagnostic spells it. -/
  | unknownForm (shown : String)
deriving DecidableEq, Repr

/-- The text of an error, if it has one. -/
def LoadError.text? : LoadError → Option String
  | unknownForm shown => some ("Unknown node type in JSON: " ++ shown)
  | _ => none

/-! ## Writing -/

/-- The document of a token. -/
def tokenDocument (t : Token) : Json :=
  .object [("__token__", .str t.kind.name), ("lexeme", t.lexeme), ("literal", t.literal),
    ("line", t.line)]

/-- The document of a tree: its form and its slots. -/
def formDocument (form : Form) (slots : List Json) : Json :=
  .object (("type", .str form.name) :: form.slots.zip slots)

mutual

/-- The document of a tree. -/
def dump : Tree → Json
  | scalar s => .scalar s
  | list items => .array (dumps items)
  | token t => tokenDocument t
  | object fields => .object fields
  | literal v _ => formDocument .literal [dump v]
  | unary op r => formDocument .unary [dump op, dump r]
  | binary l op r => formDocument .binary [dump l, dump op, dump r]
  | logical l op r => formDocument .logical [dump l, dump op, dump r]
  | grouping e => formDocument .grouping [dump e]
  | ident n _ => formDocument .ident [dump n]
  | assign n v _ => formDocument .assign [dump n, dump v]
  | call c p as => formDocument .call [dump c, dump p, dump as]
  | getField o n => formDocument .getField [dump o, dump n]
  | setField o n v => formDocument .setField [dump o, dump n, dump v]
  | thisRef k _ => formDocument .thisRef [dump k]
  | superRef k m _ => formDocument .superRef [dump k, dump m]
  | exprStmt e => formDocument .exprStmt [dump e]
  | printStmt e => formDocument .printStmt [dump e]
  | varDecl n i => formDocument .varDecl [dump n, dump i]
  | block ss => formDocument .block [dump ss]
  | ifElse c t e => formDocument .ifElse [dump c, dump t, dump e]
  | whileLoop c b => formDocument .whileLoop [dump c, dump b]
  | funDecl n ps b => formDocument .funDecl [dump n, dump ps, dump b]
  | returnStmt k v => formDocument .returnStmt [dump k, dump v]
  | classDecl n s ms => formDocument .classDecl [dump n, dump s, dump ms]

/-- The documents of trees. -/
def dumps : List Tree → List Json
  | [] => []
  | t :: ts => dump t :: dumps ts

end

/-- The document of a tree that is not too deep. -/
def document (t : Tree) : Except Fault Json :=
  if t.fits maxDepth then .ok t.dump else .error .tooDeep

/-! ## Reading -/

/-- A field that must be there. -/
def needField (fields : List (String × Json)) (key : String) : Except LoadError Json :=
  match Bindings.entry? key fields with
  | some json => .ok json
  | none => .error .badToken

/-- The kind that a document names. -/
def loadKind : Json → Except LoadError Token.Kind
  | .scalar (.str name) =>
    match Token.Kind.ofName? name with
    | some kind => .ok kind
    | none => .error .badToken
  | .scalar _ => .error .badToken
  | _ => .error .nameNotScalar

/-- The token in a document. -/
def loadToken (kind : Json) (fields : List (String × Json)) : Except LoadError Token := do
  let kind ← loadKind kind
  let lexeme ← needField fields "lexeme"
  let value ← needField fields "literal"
  let line ← needField fields "line"
  return ⟨kind, lexeme, value, line⟩

/-- The form that a document names. -/
def loadForm : Option Json → Except LoadError Form
  | some (.scalar (.str name)) =>
    match Form.ofName? name with
    | some form => .ok form
    | none => .error (.unknownForm name)
  | some (.scalar s) => .error (.unknownForm s.spelling)
  | none => .error (.unknownForm (Scalar.spelling .nil))
  | _ => .error .nameNotScalar

/-- A form with what its slots hold, in order. A slot beyond the end of the list is null. -/
def ofSlots (form : Form) (slots : List Tree) : Tree :=
  let first := slots.getD 0 null
  let second := slots.getD 1 null
  let third := slots.getD 2 null
  match form with
  | .literal => literal first none
  | .unary => unary first second
  | .binary => binary first second third
  | .logical => logical first second third
  | .grouping => grouping first
  | .ident => ident first none
  | .assign => assign first second none
  | .call => call first second third
  | .getField => getField first second
  | .setField => setField first second third
  | .thisRef => thisRef first none
  | .superRef => superRef first second none
  | .exprStmt => exprStmt first
  | .printStmt => printStmt first
  | .varDecl => varDecl first second
  | .block => block first
  | .ifElse => ifElse first second third
  | .whileLoop => whileLoop first second
  | .funDecl => funDecl first second third
  | .returnStmt => returnStmt first second
  | .classDecl => classDecl first second third

/-- The trees for the named slots, out of the fields of an object. The first error counts. -/
def pickSlots (fields : List (String × Except LoadError Tree)) :
    List String → Except LoadError (List Tree)
  | [] => .ok []
  | name :: names => do
    let tree ← (Bindings.entry? name fields).getD (.ok null)
    let trees ← pickSlots fields names
    return tree :: trees

mutual

/-- The tree of a document. -/
def load : Json → Except LoadError Tree
  | .scalar s => .ok (scalar s)
  | .array items => do
    let trees ← loads items
    return list trees
  | .object fields =>
    let loaded := loadFields fields
    match Bindings.entry? "__token__" fields with
    | some kind => (loadToken kind fields).map token
    | none => do
      let form ← loadForm (Bindings.entry? "type" fields)
      let slots ← pickSlots loaded form.slots
      return ofSlots form slots

/-- The trees in a list of documents. -/
def loads : List Json → Except LoadError (List Tree)
  | [] => .ok []
  | json :: rest => do
    let tree ← load json
    let trees ← loads rest
    return tree :: trees

/-- Each field with what loading it gives. -/
def loadFields : List (String × Json) → List (String × Except LoadError Tree)
  | [] => []
  | (key, json) :: rest => (key, load json) :: loadFields rest

end

end LoxLang.Tree
