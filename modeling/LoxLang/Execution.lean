import LoxLang.Machine

/-!
# Execution

Expressions are evaluated and statements are executed on a machine. `room` is how deep calls and
trees may still be nested; where it is used up the run stops with an overflow. `rounds` is how often
one loop may run its body.

A name with a number of scopes is looked up that many scopes out from the current one, and any other
name in the globals. A `return` ends the statements around it up to the call, as the completion of
each of them.
-/

namespace LoxLang

/-- How a statement ends. -/
inductive Completion where
  | normal
  | returned (value : Value)

/-- What a call gives whose body ends like this. -/
def Completion.value : Completion → Value
  | normal => .nil
  | returned value => value

namespace Exec

/-! ## Names -/

/-- Bind a name in the given scope. -/
def defineIn (r : ScopeRef) (name : Name) (value : Value) : Exec Unit :=
  modify fun m => { m with store := m.store.define r name value }

/-- The value of the name in a slot. -/
def lookUp (slot : Tree) (depth : Option Nat) : Exec Value := do
  let t ← lift slot.asToken
  let name ← lift t.name
  let m ← get
  match depth with
  | some distance => lift (m.store.lookupAt distance m.current name)
  | none => orStop (m.store.lookup m.globals name t.line)

/-- The scope that an assignment to a name changes. -/
def targetOf (name : Name) (line : Json) (depth : Option Nat) : Exec ScopeRef := do
  let m ← get
  match depth with
  | some distance => lift (m.store.scopeAt distance m.current)
  | none => orStop (m.store.holder m.globals name line)

/-- Assign to the name in a slot. -/
def assign (slot : Tree) (depth : Option Nat) (value : Value) : Exec Unit := do
  let t ← lift slot.asToken
  let name ← lift t.name
  let r ← targetOf name t.line depth
  defineIn r name value

/-! ## Functions, classes and objects -/

/-- Put a new function into the store. -/
def addFunction (f : Function) : Exec FunctionRef := do
  let m ← get
  let (r, store) := m.store.addFunction f
  set { m with store }
  return r

/-- Put a new class into the store. -/
def addClass (c : Class) : Exec ClassRef := do
  let m ← get
  let (r, store) := m.store.addClass c
  set { m with store }
  return r

/-- Put a new object into the store. -/
def addObject (o : Object) : Exec ObjectRef := do
  let m ← get
  let (r, store) := m.store.addObject o
  set { m with store }
  return r

/-- A copy of a method for the object `this`. -/
def bindMethod (r : FunctionRef) (this : Value) : Exec FunctionRef := do
  let m ← get
  let (r, store) := m.store.bindMethod r this
  set { m with store }
  return r

/-- The function that a reference stands for. -/
def functionAt (r : FunctionRef) : Exec Function := do
  match (← get).store.function? r with
  | some f => return f
  | none => throw (.fault .missingSlot)

/-- The object that a reference stands for. -/
def objectAt (r : ObjectRef) : Exec Object := do
  match (← get).store.object? r with
  | some o => return o
  | none => throw (.fault .missingSlot)

/-- A method of a class, bound to an object. -/
def methodOf (c : ClassRef) (name : Name) (line : Json) (this : Value) : Exec Value := do
  match (← get).store.findMethod? c name with
  | some method => do
    let r ← bindMethod method this
    return .function r
  | none => throw (.runtime ⟨.undefinedProperty name.text, line⟩)

/-- The property of an object that the name in a slot stands for. The fields of the object come
before the methods of its class. -/
def property (r : ObjectRef) (slot : Tree) : Exec Value := do
  let t ← lift slot.asToken
  let name ← lift t.name
  let o ← objectAt r
  match o.fields.find? name with
  | some value => return value
  | none => methodOf o.cls name t.line (.object r)

/-- Set a field under the name in the slot. -/
def setField (r : ObjectRef) (slot : Tree) (value : Value) : Exec Unit := do
  let name ← lift slot.asName
  modify fun m => { m with store := m.store.setField r name value }

/-- The method that `super` stands for, bound to the object that `this` stands for. The scope of
`this` is right inside the one of `super`. -/
def superMethod (method : Tree) : Option Nat → Exec Value
  | none => throw (.fault .unboundName)
  | some distance => do
    let m ← get
    let parent ← lift (m.store.lookupAt distance m.current (.ofText "super"))
    let this ← lift (m.store.lookupAt (distance - 1) m.current (.ofText "this"))
    match parent with
    | .cls c => do
      let t ← lift method.asToken
      let name ← lift t.name
      methodOf c name t.line this
    | _ => throw (.fault .missingSlot)

/-! ## Operators -/

/-- Apply a unary operator. -/
def unary (operator : Tree) (right : Value) : Exec Value := do
  let t ← lift operator.asToken
  orRaise operator (Value.unary t.kind right)

/-- Apply a binary operator. -/
def binary (operator : Tree) (left right : Value) : Exec Value := do
  let t ← lift operator.asToken
  orRaise operator (Value.binary t.kind left right)

/-- Whether the left operand of a logical operator is its value. -/
def decidesLeft (operator : Tree) (left : Value) : Exec Bool := do
  let t ← lift operator.asToken
  return left.truthy == (t.kind == .kwOr)

/-! ## Sequences and loops -/

/-- The values of expressions in order, after those in `done`, which are held last one first. -/
def evaluateEach (evaluate : Tree → Exec Value) (done : List Value) :
    List Tree → Exec (List Value)
  | [] => return done.reverse
  | t :: ts => do
    let value ← evaluate t
    evaluateEach evaluate (value :: done) ts

/-- Execute statements in order until one returns. Statements that could not be parsed are passed
over. -/
def executeEach (execute : Tree → Exec Completion) : List Tree → Exec Completion
  | [] => return .normal
  | t :: ts =>
    if t.isNull then executeEach execute ts
    else do
      match ← execute t with
      | .normal => executeEach execute ts
      | .returned value => return .returned value

/-- Execute a body for as long as a condition holds and the body does not return. -/
def repeatWhile (condition : Exec Value) (body : Exec Completion) : Nat → Exec Completion
  | 0 => throw .unfinished
  | rounds + 1 => do
    let value ← condition
    if value.truthy then
      match ← body with
      | .normal => repeatWhile condition body rounds
      | .returned value => return .returned value
    else return .normal

/-! ## Calls -/

/-- Bind parameters to arguments, in order. -/
def bindParameters (r : ScopeRef) : List Tree → List Value → Exec Unit
  | param :: params, value :: values => do
    let name ← lift param.asName
    defineIn r name value
    bindParameters r params values
  | _, _ => return ()

/-- Raise an error if the number of arguments is not the one expected. -/
def checkArity (paren : Tree) (expected got : Nat) : Exec Unit :=
  if expected = got then return () else raise paren (.argumentCount expected got)

/-- The parameters of a function, and its body. -/
def routineOf (f : Function) : Exec (List Tree × Tree) := do
  let (params, body) ← lift f.declaration.routineSlots
  let params ← lift params.asItems
  return (params, body)

/-- The number of arguments of a class: those of its initializer. -/
def classArity (initializer : Option FunctionRef) : Exec Nat := do
  match initializer with
  | none => return 0
  | some r => do
    let f ← functionAt r
    let (params, _) ← routineOf f
    return params.length

/-- The trace of a call: the name, the arguments and the line. -/
def callText (m : Machine) (name : Name) (arguments : List Value) (paren : Tree) :
    Except Fault String := do
  let texts ← m.store.texts arguments
  let t ← paren.asToken
  return "call " ++ name.text ++ "(" ++ ", ".intercalate texts ++ ") [line " ++ t.line.spelling ++ "]"

/-- Call a function: execute its body in a new scope inside the one that it was made in. An
initializer has the object as its value, whatever it returns. -/
def callFunction (executeBlock : Tree → ScopeRef → Exec Completion) (r : FunctionRef)
    (arguments : List Value) (paren : Tree) : Exec Value := do
  let f ← functionAt r
  let (params, body) ← routineOf f
  checkArity paren params.length arguments.length
  note 3 fun m => callText m f.name arguments paren
  let scope ← addScope f.closure
  bindParameters scope params arguments
  let completion ← executeBlock body scope
  if f.isInitializer then
    let m ← get
    lift (m.store.lookupAt 0 f.closure (.ofText "this"))
  else return completion.value

/-- Call a class: make an object and call the initializer on it, if there is one. -/
def callClass (call : Value → Exec Value) (c : ClassRef) (arguments : List Value) (paren : Tree) :
    Exec Value := do
  let initializer := (← get).store.findMethod? c (.ofText "init")
  let arity ← classArity initializer
  checkArity paren arity arguments.length
  let o ← addObject { cls := c }
  match initializer with
  | none => return .object o
  | some r => do
    let bound ← bindMethod r (.object o)
    let _ ← call (.function bound)
    return .object o

/-! ## Declarations -/

/-- The trace of a variable: its name, the type of its value and the value. -/
def varText (m : Machine) (name : Name) (value : Value) : Except Fault String := do
  let text ← m.store.text value
  return "declare " ++ name.text ++ ": " ++ value.typeName ++ " = " ++ text

/-- Bind a variable, and trace it. -/
def declareVar (slot : Tree) (value : Value) : Exec Completion := do
  let name ← lift slot.asName
  define name value
  note 2 fun m => varText m name value
  return .normal

/-- Bind a new function that closes over the current scope. -/
def declareFunction (declaration slot : Tree) : Exec Completion := do
  let name ← lift slot.asName
  let closure := (← get).current
  let r ← addFunction { name, declaration, closure }
  define name (.function r)
  note 2 fun _ => .ok ("define function " ++ name.text)
  return .normal

/-- The superclass of a class, if it has one. -/
def superclass (evaluate : Tree → Exec Value) (parent : Tree) : Exec (Option ClassRef) := do
  if parent.isNull then return none
  else do
    match ← evaluate parent with
    | .cls c => return some c
    | _ => do
      let slot ← lift parent.nameSlot
      raise slot .superclassNotClass

/-- Make the methods of a class in the current scope, after those in `done`. -/
def methodsOf (done : Bindings Name FunctionRef) : List Tree → Exec (Bindings Name FunctionRef)
  | [] => return done
  | t :: ts => do
    let token ← lift t.nameToken
    let name ← lift token.name
    let closure := (← get).current
    let isInitializer := token.lexeme == .str "init"
    let r ← addFunction { name, declaration := t, closure, isInitializer }
    methodsOf (done.insert name r) ts

/-- Enter a new scope that binds `super`. -/
def enterSuper : Option ClassRef → Exec Unit
  | none => return ()
  | some c => do
    let m ← get
    let r ← addScope m.current
    defineIn r (.ofText "super") (.cls c)
    modify fun m => { m with current := r }

/-- Leave the scope that binds `super`. -/
def leaveSuper : Option ClassRef → Exec Unit
  | none => return ()
  | some _ => modify fun m => { m with current := (m.store.enclosing? m.current).getD m.current }

/-- The trace of a class: its name, its superclass and its methods. -/
def classText (m : Machine) (name : Name) (parent : Option ClassRef)
    (methods : Bindings Name FunctionRef) : Except Fault String := do
  let above := match parent with
    | some c => " < " ++ m.store.className c
    | none => ""
  let names ← Store.namesText methods.keys
  return "define class " ++ name.text ++ above ++ " methods=" ++ names

/-- Declare a class. Its name is bound before its methods are made, and bound to the class after. -/
def declareClass (evaluate : Tree → Exec Value) (slot parent methods : Tree) : Exec Completion := do
  let parent ← superclass evaluate parent
  let name ← lift slot.asName
  define name .nil
  enterSuper parent
  let items ← lift methods.asItems
  let made ← methodsOf .empty items
  let c ← addClass { name, superclass := parent, methods := made }
  leaveSuper parent
  define name (.cls c)
  note 2 fun m => classText m name parent made
  return .normal

/-- The trace of a condition: its value, and whether that counts as true. -/
def conditionText (m : Machine) (value : Value) : Except Fault String := do
  let text ← m.store.text value
  return "if condition " ++ text ++ " -> " ++ (Scalar.bool value.truthy).spelling

/-- Read the clock, which goes on. -/
def readClock : Exec Value := do
  let m ← get
  modify fun m => { m with clock := m.clock.next }
  return .scalar (.num m.clock.now)

/-- Print a value. -/
def printValue (value : Value) : Exec Completion := do
  let m ← get
  let text ← lift (m.store.text value)
  modify fun m => { m with output := m.output.push text }
  return .normal

/-! ## The four walks -/

mutual

/-- Evaluate an expression. -/
def evaluate (rounds : Nat) : Nat → Tree → Exec Value
  | 0, _ => throw .overflow
  | room + 1, t =>
    match t with
    | .literal value serial => return .ofLiteral value serial
    | .grouping inner => evaluate rounds room inner
    | .unary operator right => do
      let right ← evaluate rounds room right
      unary operator right
    | .binary left operator right => do
      let left ← evaluate rounds room left
      let right ← evaluate rounds room right
      binary operator left right
    | .logical left operator right => do
      let left ← evaluate rounds room left
      if ← decidesLeft operator left then return left
      else evaluate rounds room right
    | .ident name depth => lookUp name depth
    | .assign name value depth => do
      let value ← evaluate rounds room value
      assign name depth value
      return value
    | .call callee paren arguments => do
      let callee ← evaluate rounds room callee
      let items ← lift arguments.asItems
      let arguments ← evaluateEach (evaluate rounds room) [] items
      overflowAt paren (call rounds room callee arguments paren)
    | .getField object name => do
      match ← evaluate rounds room object with
      | .object r => property r name
      | _ => raise name .propertyOfNonInstance
    | .setField object name value => do
      match ← evaluate rounds room object with
      | .object r => do
        let value ← evaluate rounds room value
        setField r name value
        return value
      | _ => raise name .fieldOfNonInstance
    | .thisRef keyword depth => lookUp keyword depth
    | .superRef _ method depth => superMethod method depth
    | t => throw (.fault (t.misplaced .evaluate))

/-- Execute a statement. -/
def execute (rounds : Nat) : Nat → Tree → Exec Completion
  | 0, _ => throw .overflow
  | room + 1, t =>
    match t with
    | .exprStmt inner => do
      let _ ← evaluate rounds room inner
      return .normal
    | .printStmt inner => do
      let value ← evaluate rounds room inner
      printValue value
    | .varDecl name initializer => do
      if initializer.isNull then declareVar name .nil
      else do
        let value ← evaluate rounds room initializer
        declareVar name value
    | .block statements => do
      let m ← get
      let scope ← addScope m.current
      executeBlock rounds room statements scope
    | .ifElse condition thenBranch elseBranch => do
      let value ← evaluate rounds room condition
      note 3 fun m => conditionText m value
      if value.truthy then execute rounds room thenBranch
      else if elseBranch.isNull then return .normal
      else execute rounds room elseBranch
    | .whileLoop condition body =>
      repeatWhile (evaluate rounds room condition) (execute rounds room body) rounds
    | .funDecl name _ _ => declareFunction t name
    | .returnStmt _ value => do
      if value.isNull then return .returned .nil
      else do
        let value ← evaluate rounds room value
        return .returned value
    | .classDecl name parent methods => declareClass (evaluate rounds room) name parent methods
    | t => throw (.fault (t.misplaced .execute))

/-- Execute the statements of a block in a scope. -/
def executeBlock (rounds : Nat) : Nat → Tree → ScopeRef → Exec Completion
  | 0, _, _ => throw .overflow
  | room + 1, statements, scope => inScope scope do
    let items ← lift statements.asItems
    executeEach (execute rounds room) items

/-- Call a value. -/
def call (rounds : Nat) : Nat → Value → List Value → Tree → Exec Value
  | 0, _, _, _ => throw .overflow
  | room + 1, callee, arguments, paren =>
    match callee with
    | .native .clock => do
      checkArity paren 0 arguments.length
      readClock
    | .function r => callFunction (executeBlock rounds room) r arguments paren
    | .cls c =>
      callClass (fun initializer => call rounds room initializer arguments paren) c arguments paren
    | _ => raise paren .notCallable

end

end Exec

end LoxLang
