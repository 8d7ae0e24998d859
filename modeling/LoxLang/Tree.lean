import LoxLang.Name
import LoxLang.Token

/-!
# Trees

A program is a list of trees. A tree can come from the parser or from a document, and a document may
put anything into any slot, so a slot holds a tree of any form: `Tree` is one type for statements,
expressions, tokens, lists and scalars. What a slot ought to hold is checked when a walk reaches it,
by the accessors at the end of this module. A check that fails is a `Fault`.

The four forms that use a name (`ident`, `assign`, `thisRef`, `superRef`) also hold the number of
scopes between the use and the scope that binds it. It is `none` for a global, and in every tree
that has not been resolved. A literal has a serial number once it is part of a running program,
which tells what it holds from what any other literal holds.
-/

namespace LoxLang

/-- A tree of a program. In a document anything can stand in a slot. -/
inductive Tree where
  | scalar (s : Scalar)
  | list (items : List Tree)
  | token (t : Token)
  /-- An object that stands for no form and no token. -/
  | object (fields : List (String × Json))
  | literal (value : Tree) (serial : Option Nat)
  | unary (operator right : Tree)
  | binary (left operator right : Tree)
  | logical (left operator right : Tree)
  | grouping (expression : Tree)
  | ident (name : Tree) (depth : Option Nat)
  | assign (name value : Tree) (depth : Option Nat)
  | call (callee paren arguments : Tree)
  | getField (object name : Tree)
  | setField (object name value : Tree)
  | thisRef (keyword : Tree) (depth : Option Nat)
  | superRef (keyword method : Tree) (depth : Option Nat)
  | exprStmt (expression : Tree)
  | printStmt (expression : Tree)
  | varDecl (name initializer : Tree)
  | block (statements : Tree)
  | ifElse (condition thenBranch elseBranch : Tree)
  | whileLoop (condition body : Tree)
  | funDecl (name params body : Tree)
  | returnStmt (keyword value : Tree)
  | classDecl (name superclass methods : Tree)
deriving Inhabited

/-- The forms of trees that stand for expressions and statements. -/
inductive Tree.Form where
  | literal | unary | binary | logical | grouping | ident | assign | call
  | getField | setField | thisRef | superRef
  | exprStmt | printStmt | varDecl | block | ifElse | whileLoop
  | funDecl | returnStmt | classDecl
deriving DecidableEq, Repr

namespace Tree.Form

/-- All forms. -/
def all : List Form :=
  [literal, unary, binary, logical, grouping, ident, assign, call, getField, setField, thisRef,
    superRef, exprStmt, printStmt, varDecl, block, ifElse, whileLoop, funDecl, returnStmt, classDecl]

/-- The name of a form in documents. -/
def name : Form → String
  | literal => "Literal"
  | unary => "Unary"
  | binary => "Binary"
  | logical => "Logical"
  | grouping => "Grouping"
  | ident => "Variable"
  | assign => "Assign"
  | call => "Call"
  | getField => "Get"
  | setField => "Set"
  | thisRef => "This"
  | superRef => "Super"
  | exprStmt => "Expression"
  | printStmt => "Print"
  | varDecl => "Var"
  | block => "Block"
  | ifElse => "If"
  | whileLoop => "While"
  | funDecl => "Function"
  | returnStmt => "Return"
  | classDecl => "Class"

/-- The form of that name. -/
def ofName? (s : String) : Option Form :=
  all.find? fun f => f.name == s

/-- The names of the slots of a form in documents, in their order. -/
def slots : Form → List String
  | literal => ["value"]
  | unary => ["operator", "right"]
  | binary => ["left", "operator", "right"]
  | logical => ["left", "operator", "right"]
  | grouping => ["expression"]
  | ident => ["name"]
  | assign => ["name", "value"]
  | call => ["callee", "paren", "arguments"]
  | getField => ["object", "name"]
  | setField => ["object", "name", "value"]
  | thisRef => ["keyword"]
  | superRef => ["keyword", "method"]
  | exprStmt => ["expression"]
  | printStmt => ["expression"]
  | varDecl => ["name", "initializer"]
  | block => ["statements"]
  | ifElse => ["condition", "then_branch", "else_branch"]
  | whileLoop => ["condition", "body"]
  | funDecl => ["name", "params", "body"]
  | returnStmt => ["keyword", "value"]
  | classDecl => ["name", "superclass", "methods"]

end Tree.Form

namespace Tree

/-- The tree of a slot that holds nothing. -/
def null : Tree := scalar .nil

/-- Nothing stands in the slot. -/
def isNull : Tree → Bool
  | scalar .nil => true
  | _ => false

mutual

/-- A datum as a tree. -/
def ofJson : Json → Tree
  | .scalar s => scalar s
  | .array items => list (ofJsons items)
  | .object fields => object fields

/-- The same for a list of documents. -/
def ofJsons : List Json → List Tree
  | [] => []
  | json :: rest => ofJson json :: ofJsons rest

end

/-- The form of an expression or a statement. -/
def form? : Tree → Option Form
  | scalar _ | list _ | token _ | object _ => none
  | literal .. => some .literal
  | unary .. => some .unary
  | binary .. => some .binary
  | logical .. => some .logical
  | grouping _ => some .grouping
  | ident .. => some .ident
  | assign .. => some .assign
  | call .. => some .call
  | getField .. => some .getField
  | setField .. => some .setField
  | thisRef .. => some .thisRef
  | superRef .. => some .superRef
  | exprStmt _ => some .exprStmt
  | printStmt _ => some .printStmt
  | varDecl .. => some .varDecl
  | block _ => some .block
  | ifElse .. => some .ifElse
  | whileLoop .. => some .whileLoop
  | funDecl .. => some .funDecl
  | returnStmt .. => some .returnStmt
  | classDecl .. => some .classDecl

/-- The trees right below a tree: the items of a list, or what the slots of a form hold, in
order. -/
def children : Tree → List Tree
  | scalar _ | token _ | object _ => []
  | list items => items
  | literal v _ => [v]
  | unary op r => [op, r]
  | binary l op r => [l, op, r]
  | logical l op r => [l, op, r]
  | grouping e => [e]
  | ident n _ => [n]
  | assign n v _ => [n, v]
  | call c p as => [c, p, as]
  | getField o n => [o, n]
  | setField o n v => [o, n, v]
  | thisRef k _ => [k]
  | superRef k m _ => [k, m]
  | exprStmt e => [e]
  | printStmt e => [e]
  | varDecl n i => [n, i]
  | block ss => [ss]
  | ifElse c t e => [c, t, e]
  | whileLoop c b => [c, b]
  | funDecl n ps b => [n, ps, b]
  | returnStmt k v => [k, v]
  | classDecl n s ms => [n, s, ms]

/-! ## Depth -/

/-- The tree has at most the given number of levels. -/
def fits : Nat → Tree → Bool
  | 0, _ => false
  | room + 1, t => t.children.all (fits room)

/-- How many levels a walk over a tree can go down. -/
def maxDepth : Nat := 14990

/-! ## Faults -/

/-- The walks over trees, by what they do. -/
inductive Walk where
  | resolve
  | execute
  | evaluate
  | print
deriving DecidableEq, Repr

/-- The name of a walk in the message of a fault. -/
def Walk.name : Walk → String
  | resolve => "resolve"
  | execute => "execute"
  | evaluate => "evaluate"
  | print => "print_ast"

/-- What a walk reports that meets a tree it has no rule for. -/
def typeText : Tree → String
  | scalar .nil => "NoneType"
  | scalar (.bool _) => "bool"
  | scalar (.int _) => "int"
  | scalar (.num _) => "float"
  | scalar (.str _) => "str"
  | list _ => "list"
  | token _ => "lox.tokens.Token"
  | object _ => "dict"
  | t => "lox.ast." ++ (t.form?.map Form.name).getD ""

end Tree

/-- What is wrong with a tree that cannot be walked. -/
inductive Fault where
  /-- A statement or an expression is of no form that the walk has a rule for. -/
  | misplaced (walk : Tree.Walk) (type : String)
  /-- A slot is read of a tree that does not have it, or a scope that does not exist. -/
  | missingSlot
  /-- A tree that is no sequence is used as one. -/
  | notSequence
  /-- A list or an object is used as a name. -/
  | notName
  /-- A text is needed, and something else is there. -/
  | notText
  /-- Names of different kinds are put in order. -/
  | notComparable
  /-- A name is looked up in a scope that does not bind it. -/
  | unboundName
  /-- A tree is too deep to be walked. -/
  | tooDeep
deriving DecidableEq, Repr

/-- The name that a token stands for. -/
def Token.name (t : Token) : Except Fault Name :=
  match t.lexeme with
  | .scalar s => .ok ⟨s⟩
  | _ => .error .notName

/-- The text of a fault, if it has one. -/
def Fault.text? : Fault → Option String
  | misplaced walk type =>
    some (walk.name ++ ": unexpected node type <class '" ++ type ++ "'>")
  | _ => none

namespace Tree

/-- The walk cannot go on with this tree. -/
def misplaced (walk : Walk) (t : Tree) : Fault :=
  .misplaced walk t.typeText

/-! ## Slots -/

/-- The token that a slot holds. -/
def asToken? : Tree → Option Token
  | token t => some t
  | _ => none

/-- The token in a slot. -/
def asToken (t : Tree) : Except Fault Token :=
  match t.asToken? with
  | some found => .ok found
  | none => .error .missingSlot

/-- The name that the token in a slot stands for. -/
def asName (t : Tree) : Except Fault Name :=
  match t.asToken with
  | .ok found => found.name
  | .error fault => .error fault

/-- The items of a slot that holds a sequence. A text is the sequence of its characters. -/
def asItems : Tree → Except Fault (List Tree)
  | list items => .ok items
  | scalar (.str s) => .ok (s.toList.map fun c => scalar (.str (String.singleton c)))
  | _ => .error .notSequence

/-- What the name slot of a tree holds. -/
def nameSlot : Tree → Except Fault Tree
  | ident n _ | assign n _ _ | getField _ n | setField _ n _ | varDecl n _ | funDecl n _ _
  | classDecl n _ _ => .ok n
  | _ => .error .missingSlot

/-- The token in the name slot of a tree. -/
def nameToken (t : Tree) : Except Fault Token :=
  match t.nameSlot with
  | .ok n => n.asToken
  | .error fault => .error fault

/-- The slots for the parameters and the body of a function. -/
def routineSlots : Tree → Except Fault (Tree × Tree)
  | funDecl _ params body => .ok (params, body)
  | _ => .error .missingSlot

end Tree

end LoxLang
