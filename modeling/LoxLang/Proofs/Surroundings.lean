import LoxLang.Proofs.Positions

/-!
# What is around a tree

The static rules of the language are about what is around a tree: the innermost function, the
innermost class, the scopes that are open and what has been declared in them. `Tree.visits` lists
the trees of a program in the order in which they are read, each with the trees around it
(`Surroundings`), and everything here is read off these: no walk keeps track of anything.

`lexicalScopes` gives the names of the scopes around a place, as far as they have been declared
there. `violations` says what a tree does wrong where it stands.
-/

namespace LoxLang

/-- The trees around a place, the innermost one first, each with the slot that the place is in. -/
abbrev Surroundings := List (Tree × Nat)

namespace Tree

/-- A declaration of a function. -/
def isFunction : Tree → Bool
  | funDecl .. => true
  | _ => false

/-- A declaration of a variable. -/
def isVariable : Tree → Bool
  | varDecl .. => true
  | _ => false

/-- The class has a superclass. -/
def inherits : Tree → Bool
  | classDecl _ superclass _ => !superclass.isNull
  | _ => false

/-- The slots hold the same name. -/
def sameName (a b : Tree) : Bool :=
  match a.asName, b.asName with
  | .ok key, .ok other => key == other
  | _, _ => false

mutual

/-- A tree and those below it, in the order in which they are read, each with what is around it. The
value of an assignment to a field is read before the object. Names and operators are no trees of
their own, nor is what a literal holds. -/
def visits (above : Surroundings) (t : Tree) : List (Surroundings × Tree) :=
  (above, t) :: match t with
    | unary _ right => right.visits ((t, 1) :: above)
    | binary left _ right | logical left _ right =>
      left.visits ((t, 0) :: above) ++ right.visits ((t, 2) :: above)
    | grouping e | exprStmt e | printStmt e => e.visits ((t, 0) :: above)
    | assign _ value _ => value.visits ((t, 1) :: above)
    | call callee _ arguments =>
      callee.visits ((t, 0) :: above) ++ arguments.visits ((t, 2) :: above)
    | getField target _ => target.visits ((t, 0) :: above)
    | setField target _ value => value.visits ((t, 2) :: above) ++ target.visits ((t, 0) :: above)
    | varDecl _ initializer => initializer.visits ((t, 1) :: above)
    | block statements => statements.visits ((t, 0) :: above)
    | ifElse condition thenBranch elseBranch =>
      condition.visits ((t, 0) :: above) ++ thenBranch.visits ((t, 1) :: above) ++
        elseBranch.visits ((t, 2) :: above)
    | whileLoop condition body =>
      condition.visits ((t, 0) :: above) ++ body.visits ((t, 1) :: above)
    | funDecl _ _ body => body.visits ((t, 2) :: above)
    | returnStmt _ value => value.visits ((t, 1) :: above)
    | classDecl _ superclass methods =>
      superclass.visits ((t, 1) :: above) ++ methods.visits ((t, 2) :: above)
    | list items => visitsFrom (fun i => (t, i) :: above) 0 items
    | _ => []

/-- The trees of a list from number `i` on, where `place` says what is around each item. -/
def visitsFrom (place : Nat → Surroundings) (i : Nat) : List Tree → List (Surroundings × Tree)
  | [] => []
  | t :: ts => t.visits (place i) ++ visitsFrom place (i + 1) ts

end

/-- The message about a slot that holds a token. -/
def problem (slot : Tree) (problem : Problem) : List Diagnostic :=
  match slot with
  | token t => [.ofToken t problem]
  | _ => []

end Tree

namespace Surroundings

/-- The innermost tree around a place that is picked, and what is around it. -/
def innermost? (pick : Tree → Bool) : Surroundings → Option (Tree × Surroundings)
  | [] => none
  | (t, _) :: outer => if pick t then some (t, outer) else innermost? pick outer

/-- Some scope is open. -/
def isLocal (above : Surroundings) : Bool :=
  above.any fun (t, i) => !(t.opens i).isEmpty

/-- These are the surroundings of a method. -/
def isMember : Surroundings → Bool
  | (.list _, _) :: (.classDecl .., _) :: _ => true
  | _ => false

/-- The function is the method of a class that is named `init`. -/
def isInitializer : Tree → Surroundings → Bool
  | .funDecl (.token name) _ _, above => name.lexeme == .str "init" && above.isMember
  | _, _ => false

/-- The place is in the initializer of a local variable with the name in the slot. -/
def initializes (above : Surroundings) (name : Tree) : Bool :=
  match above.innermost? Tree.isVariable with
  | some (.varDecl declared _, outer) => declared.sameName name && outer.isLocal
  | _ => false

/-- The names in the slots. -/
def names (slots : List Tree) : List Name :=
  slots.filterMap fun slot => slot.asName.toOption

/-- The names that statements declare. -/
def declaredNames (statements : List Tree) : List Name :=
  names (statements.filterMap Tree.declared?)

/-- The scopes around a place, the innermost one first, each with the names that are declared in it
up to the place. In a sequence of statements these are the names that the statements up to the one
around the place declare, and its own name is one of them. -/
def lexicalScopes : Surroundings → List (List Name)
  | [] => []
  | (.list items, i) :: (.block _, _) :: outer =>
    declaredNames (items.take (i + 1)) :: lexicalScopes outer
  | (.list items, i) :: (.funDecl _ (.list params) _, _) :: outer =>
    (names params ++ declaredNames (items.take (i + 1))) :: lexicalScopes outer
  | (.list _, _) :: (.classDecl _ superclass _, _) :: outer =>
    if superclass.isNull then [.ofText "this"] :: lexicalScopes outer
    else [.ofText "this"] :: [.ofText "super"] :: lexicalScopes outer
  | _ :: outer => lexicalScopes outer

/-- What a tree does wrong where it stands, as a message at the token that the message is about. -/
def violations (above : Surroundings) : Tree → List Diagnostic
  | .returnStmt keyword value =>
    match above.innermost? Tree.isFunction with
    | none => keyword.problem .topLevelReturn
    | some (f, outer) =>
      if isInitializer f outer && !value.isNull then keyword.problem .initializerReturn else []
  | .ident name _ => if above.initializes name then name.problem .ownInitializer else []
  | .thisRef keyword _ =>
    match above.innermost? Tree.isClass with
    | none => keyword.problem .thisOutsideClass
    | some _ => []
  | .superRef keyword _ _ =>
    match above.innermost? Tree.isClass with
    | none => keyword.problem .superOutsideClass
    | some (c, _) => if c.inherits then [] else keyword.problem .superWithoutSuperclass
  | .classDecl (.token name) (.ident (.token parent) _) _ =>
    if parent.lexeme == name.lexeme then [.ofToken parent .ownSuperclass] else []
  | _ => []

end Surroundings

/-- What is wrong with a tree and those below it, in the order in which they are read. -/
def Tree.reports (above : Surroundings) (t : Tree) : List Diagnostic :=
  (t.visits above).flatMap fun visit => visit.1.violations visit.2

end LoxLang
