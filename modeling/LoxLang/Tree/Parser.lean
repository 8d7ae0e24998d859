import LoxLang.Diagnostic
import LoxLang.Tree

/-!
# From tokens to trees

A recursive descent over the tokens of a program. The rules of the grammar are written for any way
to look at tokens (`Input`), and `Parse` looks at the list of those that are ahead. Expressions are
built by precedence: `levels` lists the binary operators from loose to tight, and `operators` goes
down the list. Statements and declarations follow, and `for` is written with `while` (`lowerFor`).

Two counters bound the work. `room` is the nesting that is left: entering a rule of the grammar
costs one, and a program that runs out of it is nested too deeply. `fuel` bounds the length of a
list or a chain, and the number of tokens is always enough.

A syntax problem is reported at the token where it is found. It ends the declaration around it,
which becomes a null statement, and the parser goes on at the next likely start of a statement.
Nesting that is too deep does the same for the whole statement of the program.
-/

namespace LoxLang.Parser

/-- How the rules of the grammar look at the tokens, and how they end early. -/
class Input (m : Type → Type) where
  /-- The token to look at. -/
  peek : m Token
  /-- Report a problem at a token. -/
  report : Token → Problem → m Unit
  /-- The token ahead is of the given kind, which is not the end of the program. -/
  check : Token.Kind → m Bool
  /-- Take the token ahead if it is of one of the given kinds. -/
  accept? : List Token.Kind → m (Option Token)
  /-- Take a token of the given kind, or report that it is missing. -/
  expect : Token.Kind → Expected → m Token
  /-- Report that something else is needed here, and stop. -/
  fail {α : Type} : Expected → m α
  /-- Stop, since there is no room for another rule. -/
  tooDeep {α : Type} : m α
  /-- The end of a loop that has used up its rounds, with what it has so far. -/
  unended {α : Type} : α → m α

/-- How to go on after a declaration with a syntax problem, in at most so many rounds. -/
class Recovery (m : Type → Type) where
  recover : Nat → m Tree → m Tree

section Rules

open Input Recovery

variable {m : Type → Type} [Monad m] [Input m]

/-! ## Expressions -/

/-- A level of binary operators. -/
structure Level where
  kinds : List Token.Kind
  /-- The tree that an operator makes of its operands. -/
  tree : Tree → Tree → Tree → Tree
  /-- The level is two rules, one inside the other. -/
  twofold : Bool

/-- The binary operators, loose levels first. -/
def levels : List Level :=
  [⟨[.kwOr], .logical, false⟩,
    ⟨[.kwAnd], .logical, false⟩,
    ⟨[.bangEqual, .equalEqual], .binary, true⟩,
    ⟨[.greater, .greaterEqual, .less, .lessEqual], .binary, true⟩,
    ⟨[.minus, .plus], .binary, true⟩,
    ⟨[.slash, .star], .binary, true⟩]

/-- Operands joined by the operators of one level, grouped to the left, after a first one. -/
def chain (level : Level) (operand : m Tree) : Nat → Tree → m Tree
  | 0, left => unended left
  | fuel + 1, left => do
    match ← accept? level.kinds with
    | none => return left
    | some operator => do
      let right ← operand
      chain level operand fuel (level.tree left (.token operator) right)

/-- Operands joined by the operators of one level. -/
def joined (fuel : Nat) (level : Level) (operand : m Tree) : m Tree := do
  let first ← operand
  chain level operand fuel first

/-- The rest of a list with commas, after the items in `done`, which are held last one first. -/
def listedFrom (tooMany : Problem) (item : m Tree) : Nat → List Tree → m (List Tree)
  | 0, done => unended done.reverse
  | fuel + 1, done => do
    if done.length ≥ maxArguments then
      let t ← peek
      report t tooMany
    let tree ← item
    match ← accept? [.comma] with
    | some _ => listedFrom tooMany item fuel (tree :: done)
    | none => return (tree :: done).reverse

/-- A list with commas before a closing parenthesis: arguments or parameters. -/
def listed (fuel : Nat) (tooMany : Problem) (item : m Tree) : m (List Tree) := do
  if ← check .rightParen then return []
  else listedFrom tooMany item fuel []

/-- The calls and field accesses that follow a callee or an object. -/
def accesses (loop : Nat) (expression : m Tree) : Nat → Tree → m Tree
  | 0, tree => unended tree
  | fuel + 1, tree => do
    match ← accept? [.leftParen, .dot] with
    | none => return tree
    | some t =>
      if t.kind == .leftParen then do
        let passed ← listed loop .tooManyArguments expression
        let paren ← expect .rightParen .argumentsEnd
        accesses loop expression fuel (.call tree (.token paren) (.list passed))
      else do
        let name ← expect .identifier .propertyName
        accesses loop expression fuel (.getField tree (.token name))

/-- The tree that a literal holds. Some kinds alone give the value. -/
def literalValue (t : Token) : Tree :=
  match t.kind with
  | .kwFalse => .scalar (.bool false)
  | .kwTrue => .scalar (.bool true)
  | .kwNil => .null
  | _ => .ofJson t.literal

/-- The kinds of literals. -/
def literalKinds : List Token.Kind :=
  [.kwFalse, .kwTrue, .kwNil, .number, .string]

/-- A literal, a name, `this`, a method of the superclass, or an expression in parentheses. -/
def primary (expression : m Tree) : m Tree := do
  match ← accept? (literalKinds ++ [.kwSuper, .kwThis, .identifier, .leftParen]) with
  | none => fail .expression
  | some t =>
    if t.kind = .kwSuper then do
      let _ ← expect .dot .superDot
      let method ← expect .identifier .superMethod
      return .superRef (.token t) (.token method) none
    else if t.kind = .kwThis then return .thisRef (.token t) none
    else if t.kind = .identifier then return .ident (.token t) none
    else if t.kind = .leftParen then do
      let inner ← expression
      let _ ← expect .rightParen .groupEnd
      return .grouping inner
    else return .literal (literalValue t) none

/-- The tree of an assignment to `target`, or a problem at the equals sign. -/
def assignTo (equals : Token) (target value : Tree) : m Tree :=
  match target with
  | .ident name _ => return .assign name value none
  | .getField object name => return .setField object name value
  | _ => do
    report equals .invalidTarget
    return target

mutual

/-- Operands joined by the operators of the given levels. Where no levels are left it is one
operand: operators in front of a primary expression. -/
def operators (fuel : Nat) : List Level → Nat → m Tree
  | _, 0 => tooDeep
  | [], room + 1 => do
    match ← accept? [.bang, .minus] with
    | some operator => do
      let right ← operators fuel [] room
      return .unary (.token operator) right
    | none => access fuel room
  | level :: tighter, room + 1 =>
    match level.twofold, room with
    | true, 0 => tooDeep
    | true, inner + 1 => joined fuel level (operators fuel tighter inner)
    | false, room => joined fuel level (operators fuel tighter room)

/-- A primary expression with the accesses that follow it. The expressions in parentheses are two
rules further in. -/
def access (fuel : Nat) : Nat → m Tree
  | 0 | 1 => tooDeep
  | room + 2 => do
    let first ← primary (expression fuel room)
    accesses fuel (expression fuel room) fuel first

/-- Operands joined by operators, or an assignment, which groups to the right. -/
def assignment (fuel : Nat) : Nat → m Tree
  | 0 => tooDeep
  | room + 1 => do
    let target ← operators fuel levels room
    match ← accept? [.equal] with
    | none => return target
    | some equals => do
      let value ← assignment fuel room
      assignTo equals target value

/-- An expression. -/
def expression (fuel : Nat) : Nat → m Tree
  | 0 => tooDeep
  | room + 1 => assignment fuel room

end

/-! ## Statements -/

/-- A semicolon. -/
def semicolon (what : Expected) : m Unit := do
  let _ ← expect .semicolon what

/-- The rest of a `return` statement. -/
def returnStatement (keyword : Token) (expression : m Tree) : m Tree := do
  let value ← if ← check .semicolon then pure .null else expression
  semicolon .returnEnd
  return .returnStmt (.token keyword) value

/-- The rest of the declaration of a variable. -/
def varDeclaration (expression : m Tree) : m Tree := do
  let name ← expect .identifier .variableName
  let initializer ← match ← accept? [.equal] with
    | some _ => expression
    | none => pure .null
  semicolon .variableEnd
  return .varDecl (.token name) initializer

/-- The rest of an `if` statement. An `else` belongs to the nearest `if`. -/
def ifStatement (expression statement : m Tree) : m Tree := do
  let _ ← expect .leftParen .ifCondition
  let condition ← expression
  let _ ← expect .rightParen .conditionEnd
  let thenBranch ← statement
  let elseBranch ← match ← accept? [.kwElse] with
    | some _ => statement
    | none => pure .null
  return .ifElse condition thenBranch elseBranch

/-- The rest of a `while` loop. -/
def whileStatement (expression statement : m Tree) : m Tree := do
  let _ ← expect .leftParen .whileCondition
  let condition ← expression
  let _ ← expect .rightParen .conditionEnd
  let body ← statement
  return .whileLoop condition body

/-- A `for` loop as a `while` loop: the increment follows the body in a block, a missing condition
is true, and the initializer stands before the loop in a block around it. -/
def lowerFor (initializer condition increment : Option Tree) (body : Tree) : Tree :=
  let body := match increment with
    | some step => .block (.list [body, .exprStmt step])
    | none => body
  let loop := .whileLoop (condition.getD (.literal (.scalar (.bool true)) none)) body
  match initializer with
  | some start => .block (.list [start, loop])
  | none => loop

/-- What stands before the condition of a `for` loop, with its semicolon. -/
def forInitializer (varDeclaration exprStatement : m Tree) : m (Option Tree) := do
  match ← accept? [.semicolon, .kwVar] with
  | some t =>
    if t.kind == .semicolon then return none
    else some <$> varDeclaration
  | none => some <$> exprStatement

/-- An expression, unless a token of the given kind is ahead. -/
def optionalBefore (kind : Token.Kind) (expression : m Tree) : m (Option Tree) := do
  if ← check kind then return none
  else some <$> expression

/-- The rest of a `for` loop. -/
def forStatement (varDeclaration exprStatement expression statement : m Tree) : m Tree := do
  let _ ← expect .leftParen .forClauses
  let initializer ← forInitializer varDeclaration exprStatement
  let condition ← optionalBefore .semicolon expression
  semicolon .loopConditionEnd
  let increment ← optionalBefore .rightParen expression
  let _ ← expect .rightParen .forClausesEnd
  let body ← statement
  return lowerFor initializer condition increment body

/-- Trees read by `item` up to a token of one of the given kinds, after those in `done`, which are
held last one first. -/
def itemsUntil (ends : List Token.Kind) (item : m Tree) : Nat → List Tree → m (List Tree)
  | 0, done => unended done.reverse
  | fuel + 1, done => do
    let t ← peek
    if ends.contains t.kind then return done.reverse
    else do
      let tree ← item
      itemsUntil ends item fuel (tree :: done)

/-- Trees up to a closing brace or the end of the program. -/
def itemsFrom : m Tree → Nat → List Tree → m (List Tree) :=
  itemsUntil [.rightBrace, .eof]

/-- The declarations of a block whose opening brace has been read. -/
def blockItems (fuel : Nat) (declaration : m Tree) : m (List Tree) := do
  let items ← itemsFrom declaration fuel []
  let _ ← expect .rightBrace .blockEnd
  return items

/-! ## Declarations -/

/-- The name of a parameter. -/
def parameter : m Tree := do
  let name ← expect .identifier .parameterName
  return .token name

/-- A function or a method, from its name on, its body read by `block`. -/
def routine (fuel : Nat) (block : m (List Tree)) (kind : Routine) : m Tree := do
  let name ← expect .identifier (.routineName kind)
  let _ ← expect .leftParen (.parameters kind)
  let params ← listed fuel .tooManyParameters parameter
  let _ ← expect .rightParen .parametersEnd
  let _ ← expect .leftBrace (.routineBody kind)
  let body ← block
  return .funDecl (.token name) (.list params) (.list body)

/-- The name of the superclass, if there is one. -/
def superclass : m Tree := do
  match ← accept? [.less] with
  | some _ => do
    let name ← expect .identifier .superclassName
    return .ident (.token name) none
  | none => return .null

/-- The rest of the declaration of a class. -/
def classDeclaration (fuel : Nat) (method : m Tree) : m Tree := do
  let name ← expect .identifier .className
  let parent ← superclass
  let _ ← expect .leftBrace .classBody
  let methods ← itemsFrom method fuel []
  let _ ← expect .rightBrace .classEnd
  return .classDecl (.token name) parent (.list methods)

/-! ## Rules

Each statement and declaration is a rule of its own. -/

/-- A value up to a semicolon, as a statement of the given form. -/
def valueRule (form : Tree → Tree) (fuel : Nat) : Nat → m Tree
  | 0 => tooDeep
  | room + 1 => do
    let value ← expression fuel room
    semicolon .valueEnd
    return form value

/-- A `return` statement, after its keyword. -/
def returnRule (fuel : Nat) (keyword : Token) : Nat → m Tree
  | 0 => tooDeep
  | room + 1 => returnStatement keyword (expression fuel room)

/-- The declaration of a variable, after its keyword. -/
def varRule (fuel : Nat) : Nat → m Tree
  | 0 => tooDeep
  | room + 1 => varDeclaration (expression fuel room)

variable [Recovery m]

mutual

/-- A `for` loop, after its keyword. -/
def forRule (fuel : Nat) : Nat → m Tree
  | 0 => tooDeep
  | room + 1 =>
    forStatement (varRule fuel room) (valueRule .exprStmt fuel room) (expression fuel room)
      (statement fuel room)

/-- An `if` statement, after its keyword. -/
def ifRule (fuel : Nat) : Nat → m Tree
  | 0 => tooDeep
  | room + 1 => ifStatement (expression fuel room) (statement fuel room)

/-- A `while` loop, after its keyword. -/
def whileRule (fuel : Nat) : Nat → m Tree
  | 0 => tooDeep
  | room + 1 => whileStatement (expression fuel room) (statement fuel room)

/-- A block, after its opening brace. -/
def blockRule (fuel : Nat) : Nat → m (List Tree)
  | 0 => tooDeep
  | room + 1 => blockItems fuel (declaration fuel room)

/-- A statement, told by its first token. -/
def statement (fuel : Nat) : Nat → m Tree
  | 0 => tooDeep
  | room + 1 => do
    match ← accept? [.kwFor, .kwIf, .kwPrint, .kwReturn, .kwWhile, .leftBrace] with
    | none => valueRule .exprStmt fuel room
    | some t =>
      if t.kind = .kwFor then forRule fuel room
      else if t.kind = .kwIf then ifRule fuel room
      else if t.kind = .kwPrint then valueRule .printStmt fuel room
      else if t.kind = .kwReturn then returnRule fuel t room
      else if t.kind = .kwWhile then whileRule fuel room
      else do
        let items ← blockRule fuel room
        return .block (.list items)

/-- A function or a method, from its name on. -/
def routineRule (fuel : Nat) (kind : Routine) : Nat → m Tree
  | 0 => tooDeep
  | room + 1 => routine fuel (blockRule fuel room) kind

/-- The declaration of a class, after its keyword. -/
def classRule (fuel : Nat) : Nat → m Tree
  | 0 => tooDeep
  | room + 1 => classDeclaration fuel (routineRule fuel .method room)

/-- A declaration, told by its first token, or a statement. -/
def declaration (fuel : Nat) : Nat → m Tree
  | 0 => tooDeep
  | room + 1 => recover fuel do
    match ← accept? [.kwClass, .kwFun, .kwVar] with
    | none => statement fuel room
    | some t =>
      if t.kind = .kwClass then classRule fuel room
      else if t.kind = .kwFun then routineRule fuel .function room
      else varRule fuel room

end

/-- The statements up to the end of the program. -/
def programFrom : m Tree → Nat → List Tree → m (List Tree) :=
  itemsUntil [.eof]

end Rules

/-! ## The tokens ahead -/

/-- Why a part of the parser stops early. -/
inductive Interrupt where
  | syntaxProblem
  | tooDeep
  /-- The tokens end without an end of the program among them. -/
  | outOfTokens
deriving DecidableEq, Repr

/-- The tokens ahead, and the problems found so far. -/
structure State where
  ahead : List Token
  problems : Array Diagnostic := #[]

/-- Parsing takes tokens and reports problems, or it stops early. -/
abbrev Parse := EStateM Interrupt State

/-- The token to look at. -/
def peek : Parse Token := fun s =>
  match s.ahead with
  | t :: _ => .ok t s
  | [] => .error .outOfTokens s

/-- Go past one token. -/
def advance : Parse Unit := fun s =>
  .ok () { s with ahead := s.ahead.tail }

/-- Report a problem at a token. -/
def report (t : Token) (problem : Problem) : Parse Unit := fun s =>
  .ok () { s with problems := s.problems.push (.ofToken t problem) }

/-- The token ahead is of the given kind, which is not the end of the program. -/
def check (kind : Token.Kind) : Parse Bool := do
  let t ← peek
  return t.kind == kind

/-- Take the token ahead if it is of one of the given kinds. -/
def accept? (kinds : List Token.Kind) : Parse (Option Token) := do
  let t ← peek
  if kinds.contains t.kind then
    advance
    return some t
  else return none

/-- Report that something else is needed here, and stop. -/
def fail {α : Type} (what : Expected) : Parse α := do
  let t ← peek
  report t (.expected what)
  throw .syntaxProblem

/-- Take a token of the given kind, or report that it is missing. -/
def expect (kind : Token.Kind) (what : Expected) : Parse Token := do
  let t ← peek
  if t.kind == kind then
    advance
    return t
  else fail what

/-- The rules of the grammar over the tokens ahead. -/
instance : Input Parse where
  peek := peek
  report := report
  check := check
  accept? := accept?
  expect := expect
  fail := fail
  tooDeep := throw .tooDeep
  unended := pure

/-! ## Recovery -/

/-- The kinds that start a statement or a declaration. -/
def startsStatement : Token.Kind → Bool
  | .kwClass | .kwFun | .kwVar | .kwFor | .kwIf | .kwWhile | .kwPrint | .kwReturn => true
  | _ => false

/-- The tokens from the next likely start of a statement on, after a token of kind `last`. The end
of the program is never passed. -/
def boundary (last : Token.Kind) : List Token → List Token
  | [] => []
  | t :: rest =>
    if t.kind == .eof || last == .semicolon || startsStatement t.kind then t :: rest
    else boundary t.kind rest

/-- Go past the token ahead and on to the next likely start of a statement. -/
def synchronize : Parse Unit := do
  let t ← peek
  if t.kind == .eof then return ()
  else fun s =>
    match boundary t.kind s.ahead.tail with
    | [] => .error .outOfTokens { s with ahead := [] }
    | ahead => .ok () { s with ahead }

/-- Where a rule stops for the given reason, go on with `rest` instead. -/
def rescue {ε σ α : Type} [DecidableEq ε] (why : ε) (rest rule : EStateM ε σ α) :
    EStateM ε σ α := fun s =>
  match rule s with
  | .error e s => if e = why then rest s else .error e s
  | result => result

/-- A declaration that ends in a syntax problem becomes a null statement. -/
def recover : Parse Tree → Parse Tree :=
  rescue .syntaxProblem do
    synchronize
    return .null

/-- The recovery of the rules over the tokens ahead. -/
instance : Recovery Parse where
  recover _ := recover

/-! ## Programs -/

/-- A null statement in place of one that is nested too deeply. -/
def giveUp : Parse Tree := do
  let t ← peek
  report t .tooDeep
  synchronize
  return .null

/-- A statement of the program that is nested too deeply becomes a null statement. -/
def recoverDepth : Parse Tree → Parse Tree :=
  rescue .tooDeep giveUp

/-- The statements of a program, with nesting of at most `room`. -/
def program (room : Nat) (tokens : List Token) : EStateM.Result Interrupt State (List Tree) :=
  let fuel := tokens.length + 1
  programFrom (recoverDepth (declaration fuel room)) fuel [] { ahead := tokens }

end LoxLang.Parser

namespace LoxLang

/-- The statements of a program, and the problems that the parser found. -/
structure Parsed where
  statements : List Tree := []
  problems : List Diagnostic := []

/-- Parse a list of tokens. There is no answer if the list ends without an end of the program. -/
def parse? (tokens : List Token) : Option Parsed :=
  match Parser.program Tree.maxDepth tokens with
  | .ok statements s => some ⟨statements, s.problems.toList⟩
  | .error _ _ => none

end LoxLang
