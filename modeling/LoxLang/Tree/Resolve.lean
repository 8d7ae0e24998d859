import LoxLang.Diagnostic
import LoxLang.Tree.FirstLine

/-!
# Resolving names

The resolver walks a program before it runs, with a stack of the scopes that are open. For each use
of a name it finds the innermost scope that binds the name and writes the number of scopes in
between into the tree. A use that no scope binds stays without a number, which stands for a global.
On the way it reports what can be known to be wrong without running the program.

A scope maps a name to whether its initializer is complete, so that a name which is read in its own
initializer can be told. `room` is the depth of the walk that is left. A tree costs one, and so do
the sequence of statements in a body, the parameters of a function and the members of a class.
-/

namespace LoxLang.Resolver

/-- What kind of function the walk is in. -/
inductive InFunction where
  | none
  | function
  | method
  | initializer
deriving DecidableEq, Repr

/-- What kind of class the walk is in. -/
inductive InClass where
  | none
  | root
  | subclass
deriving DecidableEq, Repr

/-- Why the walk stops early. -/
inductive Stop where
  | tooDeep
  | fault (fault : Fault)
deriving DecidableEq, Repr

/-- The names of a scope, and whether each is ready to be read. -/
abbrev Frame := Bindings Name Bool

/-- The open scopes, what is around the tree, and the problems found so far. -/
structure State where
  /-- The open scopes, the innermost one first. -/
  scopes : List Frame := []
  inFunction : InFunction := .none
  inClass : InClass := .none
  problems : Array Diagnostic := #[]
  /-- The number of uses that were found in a scope. -/
  found : Nat := 0

/-- Resolving changes the state, or it stops early. -/
abbrev Resolve := EStateM Stop State

/-- A fault ends the walk. -/
def lift {α : Type} : Except Fault α → Resolve α
  | .ok a => return a
  | .error fault => throw (.fault fault)

/-! ## Scopes -/

/-- Open a scope. -/
def openScope (frame : Frame) : Resolve Unit :=
  modify fun s => { s with scopes := frame :: s.scopes }

/-- Close the innermost scope. -/
def closeScope : Resolve Unit :=
  modify fun s => { s with scopes := s.scopes.tail }

/-- Bind a name in the innermost scope. Where no scope is open nothing is done, and the name is not
looked at. -/
def declare (name : Tree) (ready : Bool) : Resolve Unit := do
  match (← get).scopes with
  | [] => return ()
  | scope :: outer => do
    let name ← lift name.asName
    modify fun s => { s with scopes := scope.insert name ready :: outer }

/-- The number of scopes between a use of a name and the innermost scope that binds it. -/
def depthOf? (scopes : List Frame) (name : Name) : Option Nat :=
  scopes.findIdx? fun scope => scope.binds name

/-- Find the scope of a use. Where no scope is open the name is not looked at. -/
def locate (name : Tree) : Resolve (Option Nat) := do
  let scopes := (← get).scopes
  if scopes.isEmpty then return none
  else do
    let name ← lift name.asName
    match depthOf? scopes name with
    | none => return none
    | some depth => do
      modify fun s => { s with found := s.found + 1 }
      return some depth

/-- Report a problem at the token of a slot. -/
def report (t : Tree) (problem : Problem) : Resolve Unit := do
  let t ← lift t.asToken
  modify fun s => { s with problems := s.problems.push (.ofToken t problem) }

/-- Report a name that is read in its own initializer. -/
def checkReady (name : Tree) : Resolve Unit := do
  match (← get).scopes with
  | [] => return ()
  | scope :: _ => do
    let key ← lift name.asName
    if scope.find? key = some false then report name .ownInitializer

/-- Report a use of `super` where there is no superclass. -/
def checkSuper (keyword : Tree) : Resolve Unit := do
  match (← get).inClass with
  | .none => report keyword .superOutsideClass
  | .root => report keyword .superWithoutSuperclass
  | .subclass => return ()

/-! ## Expressions -/

/-- A sequence slot with its items replaced. -/
def withItems (slot : Tree) (items : List Tree) : Tree :=
  match slot with
  | .list _ => .list items
  | _ => slot

/-- Walk trees in order, after those in `done`, which are held last one first. -/
def eachFrom (walk : Tree → Resolve Tree) (done : List Tree) : List Tree → Resolve (List Tree)
  | [] => return done.reverse
  | t :: ts => do
    let walked ← walk t
    eachFrom walk (walked :: done) ts

/-- Walk the items of a sequence slot in order. -/
def eachOf (walk : Tree → Resolve Tree) (slot : Tree) : Resolve Tree := do
  let items ← lift slot.asItems
  let walked ← eachFrom walk [] items
  return withItems slot walked

/-- Resolve an expression. -/
def expression : Nat → Tree → Resolve Tree
  | 0, _ => throw .tooDeep
  | room + 1, t =>
    match t with
    | .literal .. => return t
    | .ident name _ => do
      checkReady name
      let depth ← locate name
      return .ident name depth
    | .assign name value _ => do
      let value ← expression room value
      let depth ← locate name
      return .assign name value depth
    | .thisRef keyword _ => do
      if (← get).inClass = .none then
        report keyword .thisOutsideClass
        return .thisRef keyword none
      else do
        let depth ← locate keyword
        return .thisRef keyword depth
    | .superRef keyword method _ => do
      checkSuper keyword
      let depth ← locate keyword
      return .superRef keyword method depth
    | .binary left operator right => do
      let left ← expression room left
      let right ← expression room right
      return .binary left operator right
    | .logical left operator right => do
      let left ← expression room left
      let right ← expression room right
      return .logical left operator right
    | .unary operator right => do
      let right ← expression room right
      return .unary operator right
    | .grouping inner => do
      let inner ← expression room inner
      return .grouping inner
    | .call callee paren arguments => do
      let callee ← expression room callee
      let arguments ← eachOf (expression room) arguments
      return .call callee paren arguments
    | .getField object name => do
      let object ← expression room object
      return .getField object name
    | .setField object name value => do
      let value ← expression room value
      let object ← expression room object
      return .setField object name value
    | t => throw (.fault (t.misplaced .resolve))

/-! ## Statements -/

/-- An optional slot: null stays null. -/
def optional (walk : Tree → Resolve Tree) (t : Tree) : Resolve Tree :=
  if t.isNull then return t else walk t

/-- Walk with another kind of function around. -/
def within {α : Type} (kind : InFunction) (walk : Resolve α) : Resolve α := do
  let before := (← get).inFunction
  modify fun s => { s with inFunction := kind }
  let result ← walk
  modify fun s => { s with inFunction := before }
  return result

/-- Bind the parameters of a function. -/
def declareAll : List Tree → Resolve Unit
  | [] => return ()
  | name :: names => do
    declare name false
    declare name true
    declareAll names

/-- Resolve a function in a scope with its parameters, its statements by `body`. -/
def routine (body : Tree → Resolve Tree) (kind : InFunction) (t : Tree) : Resolve Tree :=
  within kind do
    openScope .empty
    let (params, statements) ← lift t.routineSlots
    let names ← lift params.asItems
    declareAll names
    let statements ← body statements
    closeScope
    match t with
    | .funDecl name params _ => return .funDecl name params statements
    | t => return t

/-- Resolve a method. The method named `init` is the initializer. -/
def method (routine : InFunction → Tree → Resolve Tree) (t : Tree) : Resolve Tree := do
  let name ← lift t.nameToken
  routine (if name.lexeme == .str "init" then .initializer else .method) t

/-- Resolve the superclass of a class and open the scope that binds `super`. -/
def superclass (expression : Tree → Resolve Tree) (name parent : Tree) : Resolve Tree := do
  if parent.isNull then return parent
  else do
    let parentName ← lift parent.nameToken
    let ownName ← lift name.asToken
    if parentName.lexeme == ownName.lexeme then
      let slot ← lift parent.nameSlot
      report slot .ownSuperclass
    modify fun s => { s with inClass := .subclass }
    let parent ← expression parent
    openScope (.single (.ofText "super") true)
    return parent

/-- Resolve a class. Its methods are in a scope that binds `this`, inside the one that binds `super`
if there is a superclass. -/
def classBody (expression method : Tree → Resolve Tree) (name parent methods : Tree) :
    Resolve Tree := do
  let before := (← get).inClass
  modify fun s => { s with inClass := .root }
  declare name false
  declare name true
  let parent' ← superclass expression name parent
  openScope (.single (.ofText "this") true)
  let methods ← eachOf method methods
  closeScope
  if !parent.isNull then closeScope
  modify fun s => { s with inClass := before }
  return .classDecl name parent' methods

/-- Report a `return` that is not allowed where it stands. -/
def checkReturn (keyword value : Tree) : Resolve Unit := do
  match (← get).inFunction with
  | .none => report keyword .topLevelReturn
  | .initializer => if !value.isNull then report keyword .initializerReturn
  | _ => return ()

mutual

/-- Resolve the statements of a body. -/
def body : Nat → Tree → Resolve Tree
  | 0, _ => throw .tooDeep
  | room + 1, statements => eachOf (optional (statement room)) statements

/-- A function or a method, as a rule of its own. -/
def routineRule : Nat → InFunction → Tree → Resolve Tree
  | 0, _, _ => throw .tooDeep
  | room + 1, kind, t => routine (body room) kind t

/-- A class, as a rule of its own. -/
def classRule : Nat → Tree → Tree → Tree → Resolve Tree
  | 0, _, _, _ => throw .tooDeep
  | room + 1, name, parent, methods =>
    classBody (expression room) (method (routineRule room)) name parent methods

/-- Resolve a statement. -/
def statement : Nat → Tree → Resolve Tree
  | 0, _ => throw .tooDeep
  | room + 1, t =>
    match t with
    | .block statements => do
      openScope .empty
      let statements ← body room statements
      closeScope
      return .block statements
    | .varDecl name initializer => do
      declare name false
      let initializer ← optional (expression room) initializer
      declare name true
      return .varDecl name initializer
    | .funDecl name _ _ => do
      declare name false
      declare name true
      routineRule room .function t
    | .classDecl name parent methods => classRule room name parent methods
    | .exprStmt inner => do
      let inner ← expression room inner
      return .exprStmt inner
    | .printStmt inner => do
      let inner ← expression room inner
      return .printStmt inner
    | .ifElse condition thenBranch elseBranch => do
      let condition ← expression room condition
      let thenBranch ← statement room thenBranch
      let elseBranch ← optional (statement room) elseBranch
      return .ifElse condition thenBranch elseBranch
    | .whileLoop condition body => do
      let condition ← expression room condition
      let body ← statement room body
      return .whileLoop condition body
    | .returnStmt keyword value => do
      checkReturn keyword value
      let value ← optional (expression room) value
      return .returnStmt keyword value
    | t => throw (.fault (t.misplaced .resolve))

end

/-! ## Programs -/

/-- A statement of the program that is too deep to walk is reported at its first line and stays as
it was. All scopes are closed. -/
def topLevel (room : Nat) (t : Tree) : Resolve Tree := fun s =>
  match statement room t s with
  | .error .tooDeep s =>
    .ok t { s with
      scopes := []
      inFunction := .none
      inClass := .none
      problems := s.problems.push (.static t.firstLine .nowhere .tooDeep) }
  | result => result

/-- The statements of a program. -/
def program (room : Nat) (statements : List Tree) : Resolve (List Tree) :=
  eachFrom (optional (topLevel room)) [] statements

end LoxLang.Resolver

namespace LoxLang

/-- A resolved program, the problems found, how many uses were found in a scope, and how many scopes
are still open. -/
structure Resolved where
  statements : Except Fault (List Tree)
  problems : List Diagnostic
  found : Nat
  openScopes : Nat

/-- Resolve a program. Statements that could not be parsed are passed over. -/
def resolve (statements : List Tree) : Resolved :=
  match Resolver.program Tree.maxDepth statements {} with
  | .ok trees s => ⟨.ok trees, s.problems.toList, s.found, s.scopes.length⟩
  | .error (.fault fault) s => ⟨.error fault, s.problems.toList, s.found, s.scopes.length⟩
  | .error .tooDeep s => ⟨.ok statements, s.problems.toList, s.found, s.scopes.length⟩

end LoxLang
