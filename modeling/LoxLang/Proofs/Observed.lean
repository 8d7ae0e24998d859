import LoxLang.Execution
import LoxLang.Proofs.Positions

/-!
# The observed machine

The machine forgets where its scopes and functions come from. The observed machine runs the same
programs and keeps a record beside the store. It has for each scope the site that opened it and what
it was opened for, and for each function the position of its declaration with the scopes that were
active there, the innermost one first: its *display*. Each walk is given the position of its tree
and the display of the scopes that are active around it. A block, a call, a method bound to an
object and a class with a superclass put the scope that they open on the display, a function keeps
the display that it was made with, and no link of the store is looked at.

Each tree that is evaluated or executed is logged with its position, its display and the machine at
that moment (`Visit`). An assignment is logged once more right before it changes a scope. Leaving
the record out gives the machine back (`runs_walks`).
-/

namespace LoxLang

/-- Where a function comes from. -/
structure Home where
  position : Position
  display : List ScopeRef
deriving Inhabited

/-- What a scope was opened for. -/
inductive Subject where
  | block
  /-- A call of the function. -/
  | call (callee : FunctionRef)
  /-- A method that was bound to the object. -/
  | receiver (this : Value)
  /-- The methods of a class with the superclass. -/
  | parent (superclass : ClassRef)

/-- A tree that is about to be evaluated or executed. -/
structure Visit where
  position : Position
  tree : Tree
  display : List ScopeRef
  machine : Machine

/-- The machine, with a record of where its scopes, functions and visits come from. -/
structure Watched where
  machine : Machine
  /-- The site of each scope. The globals have none. -/
  origins : Array (Option Site)
  /-- What each scope was opened for, in the order of the sites. -/
  subjects : Array (Option Subject)
  homes : Array Home
  visits : Array Visit

/-- Evaluation under observation. -/
abbrev Watch := EStateM Stop Watched

namespace Watch

variable {plainly : Tree → Exec Value}

/-! ## Steps -/

/-- A step of the machine that opens no scope and makes no function. -/
def plain {α : Type} (step : Exec α) : Watch α := fun w =>
  match step w.machine with
  | .ok a machine => .ok a { w with machine }
  | .error e machine => .error e { w with machine }

/-- Record that a tree is visited. -/
def visit (p : Position) (display : List ScopeRef) (t : Tree) : Watch Unit :=
  modify fun w => { w with visits := w.visits.push ⟨p, t, display, w.machine⟩ }

/-- Add a scope that is opened at a site. -/
def addScope (site : Site) (subject : Subject) (enclosing : ScopeRef) : Watch ScopeRef := do
  let r ← plain (Exec.addScope enclosing)
  modify fun w => { w with
    origins := w.origins.push (some site)
    subjects := w.subjects.push (some subject) }
  return r

/-- Add a function that is declared at a position. -/
def addFunction (home : Home) (f : Function) : Watch FunctionRef := do
  let r ← plain (Exec.addFunction f)
  modify fun w => { w with homes := w.homes.push home }
  return r

/-- Where a function comes from. -/
def homeOf (r : FunctionRef) : Watch Home := do
  return ((← get).homes[r.index]?).getD default

/-- Bind a method to an object. The scope that binds `this` is the next one to be added. -/
def bindMethod (r : FunctionRef) (this : Value) : Watch FunctionRef := do
  let home ← homeOf r
  let scope : ScopeRef := ⟨(← get).machine.store.scopes.size⟩
  let bound ← plain (Exec.bindMethod r this)
  modify fun w => { w with
    origins := w.origins.push (some ⟨.receiver, home.position.classOfMethod⟩)
    subjects := w.subjects.push (some (.receiver this))
    homes := w.homes.push ⟨home.position, scope :: home.display⟩ }
  return bound

/-- Run in a scope, and go back to the scope before, however the run ends. -/
def inScope {α : Type} (r : ScopeRef) (run : Watch α) : Watch α := fun w =>
  let before := w.machine.current
  match run { w with machine := { w.machine with current := r } } with
  | .ok a w => .ok a { w with machine := { w.machine with current := before } }
  | .error e w => .error e { w with machine := { w.machine with current := before } }

/-- An overflow inside `run` is an error at the token in a slot. -/
def overflowAt {α : Type} (slot : Tree) (run : Watch α) : Watch α := fun w =>
  match run w with
  | .error .overflow w => plain (Exec.raise slot .stackOverflow) w
  | result => result

/-! ## Methods -/

/-- The method of a class for the object `this`. -/
def methodOf (c : ClassRef) (name : Name) (line : Json) (this : Value) : Watch Value := do
  match (← plain get).store.findMethod? c name with
  | some method => do
    let r ← bindMethod method this
    return .function r
  | none => throw (.runtime ⟨.undefinedProperty name.text, line⟩)

/-- A field of an object, or else a method of its class. -/
def property (r : ObjectRef) (slot : Tree) : Watch Value := do
  let t ← plain (Exec.lift slot.asToken)
  let name ← plain (Exec.lift t.name)
  let o ← plain (Exec.objectAt r)
  match o.fields.find? name with
  | some value => return value
  | none => methodOf o.cls name t.line (.object r)

/-- A method of the superclass, for the object of the scope right inside. -/
def superMethod (method : Tree) : Option Nat → Watch Value
  | none => throw (.fault .unboundName)
  | some distance => do
    let m ← plain get
    let parent ← plain (Exec.lift (m.store.lookupAt distance m.current (.ofText "super")))
    let this ← plain (Exec.lift (m.store.lookupAt (distance - 1) m.current (.ofText "this")))
    match parent with
    | .cls c => do
      let t ← plain (Exec.lift method.asToken)
      let name ← plain (Exec.lift t.name)
      methodOf c name t.line this
    | _ => throw (.fault .missingSlot)

/-! ## Sequences and loops -/

/-- Evaluate the items of a sequence from the given one on. -/
def evaluateEach (evaluate : Nat → Tree → Watch Value) (done : List Value) :
    Nat → List Tree → Watch (List Value)
  | _, [] => return done.reverse
  | i, t :: ts => do
    let value ← evaluate i t
    evaluateEach evaluate (value :: done) (i + 1) ts

/-- Execute the items of a sequence from the given one on. -/
def executeEach (execute : Nat → Tree → Watch Completion) : Nat → List Tree → Watch Completion
  | _, [] => return .normal
  | i, t :: ts =>
    if t.isNull then executeEach execute (i + 1) ts
    else do
      match ← execute i t with
      | .normal => executeEach execute (i + 1) ts
      | .returned value => return .returned value

/-- The rounds of a `while` loop. -/
def repeatWhile (condition : Watch Value) (body : Watch Completion) : Nat → Watch Completion
  | 0 => throw .unfinished
  | rounds + 1 => do
    let value ← condition
    if value.truthy then
      match ← body with
      | .normal => repeatWhile condition body rounds
      | .returned value => return .returned value
    else return .normal

/-! ## Calls -/

/-- Call a function. Its scope goes on the display that the function was made with. -/
def callFunction (executeBlock : Position → List ScopeRef → Tree → ScopeRef → Watch Completion)
    (r : FunctionRef) (arguments : List Value) (paren : Tree) : Watch Value := do
  let f ← plain (Exec.functionAt r)
  let home ← homeOf r
  let (params, body) ← plain (Exec.routineOf f)
  plain (Exec.checkArity paren params.length arguments.length)
  plain (Exec.note 3 fun m => Exec.callText m f.name arguments paren)
  let scope ← addScope ⟨.function, home.position⟩ (.call r) f.closure
  plain (Exec.bindParameters scope params arguments)
  let completion ← executeBlock (home.position.below 2) (scope :: home.display) body scope
  if f.isInitializer then
    let m ← plain get
    plain (Exec.lift (m.store.lookupAt 0 f.closure (.ofText "this")))
  else return completion.value

/-- Call a class: make an object and call its initializer. -/
def callClass (call : Value → Watch Value) (c : ClassRef) (arguments : List Value) (paren : Tree) :
    Watch Value := do
  let initializer := (← plain get).store.findMethod? c (.ofText "init")
  let arity ← plain (Exec.classArity initializer)
  plain (Exec.checkArity paren arity arguments.length)
  let o ← plain (Exec.addObject { cls := c })
  match initializer with
  | none => return .object o
  | some r => do
    let bound ← bindMethod r (.object o)
    let _ ← call (.function bound)
    return .object o

/-! ## Declarations -/

/-- Declare a function, with its home. -/
def declareFunction (home : Home) (declaration slot : Tree) : Watch Completion := do
  let name ← plain (Exec.lift slot.asName)
  let closure := (← plain get).current
  let r ← addFunction home { name, declaration, closure }
  plain (Exec.define name (.function r))
  plain (Exec.note 2 fun _ => .ok ("define function " ++ name.text))
  return .normal

/-- The superclass of a declaration, which has to be a class. -/
def superclass (evaluate : Tree → Watch Value) (parent : Tree) : Watch (Option ClassRef) := do
  if parent.isNull then return none
  else do
    match ← evaluate parent with
    | .cls c => return some c
    | _ => do
      let slot ← plain (Exec.lift parent.nameSlot)
      plain (Exec.raise slot .superclassNotClass)

/-- Make the methods of a class, of which the given one is the first that is left. -/
def methodsOf (p : Position) (display : List ScopeRef) (done : Bindings Name FunctionRef) :
    Nat → List Tree → Watch (Bindings Name FunctionRef)
  | _, [] => return done
  | i, t :: ts => do
    let token ← plain (Exec.lift t.nameToken)
    let name ← plain (Exec.lift token.name)
    let closure := (← plain get).current
    let isInitializer := token.lexeme == .str "init"
    let r ← addFunction ⟨p.below i, display⟩ { name, declaration := t, closure, isInitializer }
    methodsOf p display (done.insert name r) (i + 1) ts

/-- Open the scope of `super`, if there is a superclass. -/
def enterSuper (site : Site) : Option ClassRef → Watch Unit
  | none => return ()
  | some c => do
    let m ← plain get
    let r ← addScope site (.parent c) m.current
    plain (Exec.defineIn r (.ofText "super") (.cls c))
    plain (modify fun m => { m with current := r })

/-- The display around the methods of a class. The scope that binds `super` is the next one to be
added. -/
def displayInside (m : Machine) (display : List ScopeRef) : Option ClassRef → List ScopeRef
  | none => display
  | some _ => ⟨m.store.scopes.size⟩ :: display

/-- Declare a class. -/
def declareClass (evaluate : Tree → Watch Value) (p : Position) (display : List ScopeRef)
    (slot parent methods : Tree) : Watch Completion := do
  let parent ← superclass evaluate parent
  let name ← plain (Exec.lift slot.asName)
  plain (Exec.define name .nil)
  let inside := displayInside (← get).machine display parent
  enterSuper ⟨.parent, p⟩ parent
  let items ← plain (Exec.lift methods.asItems)
  let made ← methodsOf (p.below 2) inside .empty 0 items
  let c ← plain (Exec.addClass { name, superclass := parent, methods := made })
  plain (Exec.leaveSuper parent)
  plain (Exec.define name (.cls c))
  plain (Exec.note 2 fun m => Exec.classText m name parent made)
  return .normal

/-! ## The four walks -/

mutual

/-- Evaluate the expression at a position. -/
def evaluate (rounds : Nat) : Nat → Position → List ScopeRef → Tree → Watch Value
  | 0, _, _, _ => throw .overflow
  | room + 1, p, display, t => do
    visit p display t
    match t with
    | .literal value serial => return .ofLiteral value serial
    | .grouping inner => evaluate rounds room (p.below 0) display inner
    | .unary operator right => do
      let right ← evaluate rounds room (p.below 1) display right
      plain (Exec.unary operator right)
    | .binary left operator right => do
      let left ← evaluate rounds room (p.below 0) display left
      let right ← evaluate rounds room (p.below 2) display right
      plain (Exec.binary operator left right)
    | .logical left operator right => do
      let left ← evaluate rounds room (p.below 0) display left
      if ← plain (Exec.decidesLeft operator left) then return left
      else evaluate rounds room (p.below 2) display right
    | .ident name depth => plain (Exec.lookUp name depth)
    | .assign name value depth => do
      let value ← evaluate rounds room (p.below 1) display value
      visit p display t
      plain (Exec.assign name depth value)
      return value
    | .call callee paren arguments => do
      let callee ← evaluate rounds room (p.below 0) display callee
      let items ← plain (Exec.lift arguments.asItems)
      let arguments ←
        evaluateEach (fun i => evaluate rounds room ((p.below 2).below i) display) [] 0 items
      overflowAt paren (call rounds room callee arguments paren)
    | .getField object name => do
      match ← evaluate rounds room (p.below 0) display object with
      | .object r => property r name
      | _ => plain (Exec.raise name .propertyOfNonInstance)
    | .setField object name value => do
      match ← evaluate rounds room (p.below 0) display object with
      | .object r => do
        let value ← evaluate rounds room (p.below 2) display value
        plain (Exec.setField r name value)
        return value
      | _ => plain (Exec.raise name .fieldOfNonInstance)
    | .thisRef keyword depth => plain (Exec.lookUp keyword depth)
    | .superRef _ method depth => superMethod method depth
    | t => throw (.fault (t.misplaced .evaluate))

/-- Execute the statement at a position. -/
def execute (rounds : Nat) : Nat → Position → List ScopeRef → Tree → Watch Completion
  | 0, _, _, _ => throw .overflow
  | room + 1, p, display, t => do
    visit p display t
    match t with
    | .exprStmt inner => do
      let _ ← evaluate rounds room (p.below 0) display inner
      return .normal
    | .printStmt inner => do
      let value ← evaluate rounds room (p.below 0) display inner
      plain (Exec.printValue value)
    | .varDecl name initializer => do
      if initializer.isNull then plain (Exec.declareVar name .nil)
      else do
        let value ← evaluate rounds room (p.below 1) display initializer
        plain (Exec.declareVar name value)
    | .block statements => do
      let m ← plain get
      let scope ← addScope ⟨.block, p⟩ .block m.current
      executeBlock rounds room (p.below 0) (scope :: display) statements scope
    | .ifElse condition thenBranch elseBranch => do
      let value ← evaluate rounds room (p.below 0) display condition
      plain (Exec.note 3 fun m => Exec.conditionText m value)
      if value.truthy then execute rounds room (p.below 1) display thenBranch
      else if elseBranch.isNull then return .normal
      else execute rounds room (p.below 2) display elseBranch
    | .whileLoop condition body =>
      repeatWhile (evaluate rounds room (p.below 0) display condition)
        (execute rounds room (p.below 1) display body) rounds
    | .funDecl name _ _ => declareFunction ⟨p, display⟩ t name
    | .returnStmt _ value => do
      if value.isNull then return .returned .nil
      else do
        let value ← evaluate rounds room (p.below 1) display value
        return .returned value
    | .classDecl name parent methods =>
      declareClass (evaluate rounds room (p.below 1) display) p display name parent methods
    | t => throw (.fault (t.misplaced .execute))

/-- Execute the statements of a block in a scope, which is the first one of the display. -/
def executeBlock (rounds : Nat) : Nat → Position → List ScopeRef → Tree → ScopeRef →
    Watch Completion
  | 0, _, _, _, _ => throw .overflow
  | room + 1, p, display, statements, scope => inScope scope do
    let items ← plain (Exec.lift statements.asItems)
    executeEach (fun i => execute rounds room (p.below i) display) 0 items

/-- Call a value. -/
def call (rounds : Nat) : Nat → Value → List Value → Tree → Watch Value
  | 0, _, _, _ => throw .overflow
  | room + 1, callee, arguments, paren =>
    match callee with
    | .native .clock => do
      plain (Exec.checkArity paren 0 arguments.length)
      plain Exec.readClock
    | .function r => callFunction (executeBlock rounds room) r arguments paren
    | .cls c =>
      callClass (fun initializer => call rounds room initializer arguments paren) c arguments paren
    | _ => plain (Exec.raise paren .notCallable)

end

/-! ## Erasure -/

/-- Without the record, the observed computation is a computation of the machine. -/
abbrev Runs {α : Type} (x : Watch α) (y : Exec α) : Prop :=
  Erases Watched.machine x y

section Erases

variable {α β : Type} {x : Watch α} {y : Exec α}

theorem runs_plain (y : Exec α) : Runs (plain y) y := by
  intro w
  unfold plain
  cases y w.machine <;> rfl

theorem runs_visit {p : Position} {display : List ScopeRef} {t : Tree} {f : Unit → Watch β}
    {y : Exec β} (hf : Runs (f ()) y) : Runs (visit p display t >>= f) y :=
  .silent (fun _ => rfl) hf

theorem runs_homeOf {r : FunctionRef} {f : Home → Watch β} {y : Exec β}
    (hf : ∀ home, Runs (f home) y) : Runs (homeOf r >>= f) y :=
  fun w => hf _ w

theorem runs_addScope (site : Site) (subject : Subject) (enclosing : ScopeRef) :
    Runs (addScope site subject enclosing) (Exec.addScope enclosing) :=
  fun _ => rfl

theorem runs_addFunction (home : Home) (f : Function) :
    Runs (addFunction home f) (Exec.addFunction f) :=
  fun _ => rfl

theorem runs_bindMethod (r : FunctionRef) (this : Value) :
    Runs (bindMethod r this) (Exec.bindMethod r this) :=
  fun _ => rfl

theorem runs_inScope (h : Runs x y) (r : ScopeRef) :
    Runs (inScope r x) (Exec.inScope r y) := by
  intro w
  have hw := h { w with machine := { w.machine with current := r } }
  unfold Watch.inScope Exec.inScope
  dsimp only at hw ⊢
  rw [← hw]
  cases x { w with machine := { w.machine with current := r } } <;> rfl

theorem runs_overflowAt (h : Runs x y) (slot : Tree) :
    Runs (overflowAt slot x) (Exec.overflowAt slot y) := by
  intro w
  have hw := h w
  unfold Watch.overflowAt Exec.overflowAt
  rw [← hw]
  cases x w with
  | ok a w' => rfl
  | error e w' =>
    cases e with
    | overflow => exact runs_plain (Exec.raise slot .stackOverflow) w'
    | _ => rfl

end Erases

theorem runs_methodOf (c : ClassRef) (name : Name) (line : Json) (this : Value) :
    Runs (methodOf c name line this) (Exec.methodOf c name line this) := by
  refine (runs_plain get).bind fun m => ?_
  cases m.store.findMethod? c name with
  | some method => exact (runs_bindMethod _ _).bind fun _ => erases_pure _
  | none => exact erases_throw _

theorem runs_property (r : ObjectRef) (slot : Tree) :
    Runs (property r slot) (Exec.property r slot) := by
  refine (runs_plain _).bind fun t => (runs_plain _).bind fun name => ?_
  refine (runs_plain _).bind fun o => ?_
  cases o.fields.find? name with
  | some value => exact erases_pure _
  | none => exact runs_methodOf _ _ _ _

/-- An observed method of a superclass is the plain one. -/
theorem runs_superMethod (method : Tree) (depth : Option Nat) :
    Runs (superMethod method depth) (Exec.superMethod method depth) := by
  cases depth with
  | none => exact erases_throw _
  | some distance =>
    refine (runs_plain get).bind fun m => (runs_plain _).bind fun parent => ?_
    refine (runs_plain _).bind fun this => ?_
    cases parent with
    | cls c =>
      refine (runs_plain _).bind fun t => (runs_plain _).bind fun name => ?_
      exact runs_methodOf _ _ _ _
    | _ => exact erases_throw _

theorem runs_evaluateEach {evaluate : Nat → Tree → Watch Value}
    (h : ∀ i t, Runs (evaluate i t) (plainly t)) (ts : List Tree) :
    ∀ done i, Runs (evaluateEach evaluate done i ts) (Exec.evaluateEach plainly done ts) := by
  induction ts with
  | nil => exact fun _ _ => erases_pure _
  | cons t ts ih => exact fun _ i => (h i t).bind fun value => ih _ _

/-- Observed statements run like plain ones. -/
theorem runs_executeEach {execute : Nat → Tree → Watch Completion}
    {plainly : Tree → Exec Completion} (h : ∀ i t, Runs (execute i t) (plainly t))
    (ts : List Tree) :
    ∀ i, Runs (executeEach execute i ts) (Exec.executeEach plainly ts) := by
  induction ts with
  | nil => exact fun _ => erases_pure _
  | cons t ts ih =>
    intro i
    unfold executeEach Exec.executeEach
    split
    · exact ih _
    · refine (h i t).bind fun completion => ?_
      split
      · exact ih _
      · exact erases_pure _

/-- An observed loop runs like a plain one. -/
theorem runs_repeatWhile {condition : Watch Value} {body : Watch Completion}
    {plainCondition : Exec Value} {plainBody : Exec Completion}
    (hc : Runs condition plainCondition) (hb : Runs body plainBody) (rounds : Nat) :
    Runs (repeatWhile condition body rounds)
      (Exec.repeatWhile plainCondition plainBody rounds) := by
  induction rounds with
  | zero => exact erases_throw _
  | succ rounds ih =>
    unfold repeatWhile Exec.repeatWhile
    refine hc.bind fun value => ?_
    split
    · refine hb.bind fun completion => ?_
      split
      · exact ih
      · exact erases_pure _
    · exact erases_pure _

/-- An observed call runs like a plain one. -/
theorem runs_callFunction
    {executeBlock : Position → List ScopeRef → Tree → ScopeRef → Watch Completion}
    {plainly : Tree → ScopeRef → Exec Completion}
    (h : ∀ p display t r, Runs (executeBlock p display t r) (plainly t r)) (r : FunctionRef)
    (arguments : List Value) (paren : Tree) :
    Runs (callFunction executeBlock r arguments paren)
      (Exec.callFunction plainly r arguments paren) := by
  refine (runs_plain _).bind fun f => runs_homeOf fun home => ?_
  refine (runs_plain _).bind fun (params, body) => (runs_plain _).bind fun _ => ?_
  refine (runs_plain _).bind fun _ => (runs_addScope _ _ _).bind fun scope => ?_
  refine (runs_plain _).bind fun _ => (h _ _ _ _).bind fun completion => ?_
  split
  · exact (runs_plain get).bind fun m => runs_plain _
  · exact erases_pure _

/-- An observed call of a class is the plain one. -/
theorem runs_callClass {call : Value → Watch Value} {plainly : Value → Exec Value}
    (h : ∀ v, Runs (call v) (plainly v)) (c : ClassRef) (arguments : List Value) (paren : Tree) :
    Runs (callClass call c arguments paren) (Exec.callClass plainly c arguments paren) := by
  refine (runs_plain get).bind fun m => (runs_plain _).bind fun arity => ?_
  refine (runs_plain _).bind fun _ => (runs_plain _).bind fun o => ?_
  cases m.store.findMethod? c (.ofText "init") with
  | none => exact erases_pure _
  | some r =>
    refine (runs_bindMethod _ _).bind fun bound => ?_
    exact (h _).bind fun _ => erases_pure _

theorem runs_declareFunction (home : Home) (declaration slot : Tree) :
    Runs (declareFunction home declaration slot) (Exec.declareFunction declaration slot) := by
  refine (runs_plain _).bind fun name => (runs_plain get).bind fun m => ?_
  refine (runs_addFunction _ _).bind fun r => (runs_plain _).bind fun _ => ?_
  exact (runs_plain _).bind fun _ => erases_pure _

theorem runs_methodsOf (p : Position) (display : List ScopeRef) (ts : List Tree) :
    ∀ done i, Runs (methodsOf p display done i ts) (Exec.methodsOf done ts) := by
  induction ts with
  | nil => exact fun _ _ => erases_pure _
  | cons t ts ih =>
    intro done i
    refine (runs_plain _).bind fun token => (runs_plain _).bind fun name => ?_
    refine (runs_plain get).bind fun m => (runs_addFunction _ _).bind fun r => ?_
    exact ih _ _

theorem runs_enterSuper (site : Site) (parent : Option ClassRef) :
    Runs (enterSuper site parent) (Exec.enterSuper parent) := by
  cases parent with
  | none => exact erases_pure _
  | some c =>
    refine (runs_plain get).bind fun m => (runs_addScope _ _ _).bind fun r => ?_
    exact (runs_plain _).bind fun _ => runs_plain _

theorem runs_superclass {evaluate : Tree → Watch Value} (h : ∀ t, Runs (evaluate t) (plainly t))
    (parent : Tree) : Runs (superclass evaluate parent) (Exec.superclass plainly parent) := by
  unfold superclass Exec.superclass
  split
  · exact erases_pure _
  · refine (h parent).bind fun value => ?_
    cases value with
    | cls c => exact erases_pure _
    | _ => exact (runs_plain _).bind fun slot => runs_plain _

/-- An observed class is declared like a plain one. -/
theorem runs_declareClass {evaluate : Tree → Watch Value} (h : ∀ t, Runs (evaluate t) (plainly t))
    (p : Position) (display : List ScopeRef) (slot parent methods : Tree) :
    Runs (declareClass evaluate p display slot parent methods)
      (Exec.declareClass plainly slot parent methods) := by
  refine (runs_superclass h parent).bind fun parent => (runs_plain _).bind fun name => ?_
  refine (runs_plain _).bind fun _ => .look fun w => ?_
  refine (runs_enterSuper _ _).bind fun _ => (runs_plain _).bind fun items => ?_
  refine (runs_methodsOf _ _ _ _ _).bind fun made => (runs_plain _).bind fun c => ?_
  refine (runs_plain _).bind fun _ => (runs_plain _).bind fun _ => ?_
  exact (runs_plain _).bind fun _ => erases_pure _

/-- Without the record, the observed machine is the machine. -/
theorem runs_walks (rounds room : Nat) :
    (∀ p display t, Runs (evaluate rounds room p display t) (Exec.evaluate rounds room t)) ∧
    (∀ p display t, Runs (execute rounds room p display t) (Exec.execute rounds room t)) ∧
    (∀ p display t r,
      Runs (executeBlock rounds room p display t r) (Exec.executeBlock rounds room t r)) ∧
    ∀ v arguments paren,
      Runs (call rounds room v arguments paren) (Exec.call rounds room v arguments paren) := by
  induction room with
  | zero =>
    refine ⟨fun _ _ _ => ?_, fun _ _ _ => ?_, fun _ _ _ _ => ?_, fun _ _ _ => ?_⟩
    · unfold evaluate Exec.evaluate
      exact erases_throw _
    · unfold execute Exec.execute
      exact erases_throw _
    · unfold executeBlock Exec.executeBlock
      exact erases_throw _
    · unfold call Exec.call
      exact erases_throw _
  | succ room ih =>
    obtain ⟨hevaluate, hexecute, hblock, hcall⟩ := ih
    refine ⟨fun p display t => ?_, fun p display t => ?_, fun p display t r => ?_,
      fun v arguments paren => ?_⟩
    · unfold evaluate
      refine runs_visit ?_
      unfold Exec.evaluate
      cases t with
      | literal => exact erases_pure _
      | grouping inner => exact hevaluate _ _ inner
      | unary operator right => exact (hevaluate _ _ right).bind fun _ => runs_plain _
      | binary left operator right =>
        exact (hevaluate _ _ left).bind fun _ => (hevaluate _ _ right).bind fun _ => runs_plain _
      | logical left operator right =>
        refine (hevaluate _ _ left).bind fun value => (runs_plain _).bind fun decided => ?_
        cases decided with
        | true => exact erases_pure _
        | false => exact hevaluate _ _ right
      | ident | thisRef => exact runs_plain _
      | assign name value depth =>
        refine (hevaluate _ _ value).bind fun _ => runs_visit ?_
        exact (runs_plain _).bind fun _ => erases_pure _
      | call callee paren arguments =>
        refine (hevaluate _ _ callee).bind fun _ => (runs_plain _).bind fun items => ?_
        refine (runs_evaluateEach (fun _ t => hevaluate _ _ t) items _ _).bind fun _ => ?_
        exact runs_overflowAt (hcall _ _ _) _
      | getField object name =>
        refine (hevaluate _ _ object).bind fun value => ?_
        cases value with
        | object r => exact runs_property _ _
        | _ => exact runs_plain _
      | setField object name value =>
        refine (hevaluate _ _ object).bind fun target => ?_
        cases target with
        | object r =>
          refine (hevaluate _ _ value).bind fun _ => ?_
          exact (runs_plain _).bind fun _ => erases_pure _
        | _ => exact runs_plain _
      | superRef keyword method depth => exact runs_superMethod _ _
      | _ => exact erases_throw _
    · unfold execute
      refine runs_visit ?_
      unfold Exec.execute
      cases t with
      | exprStmt inner => exact (hevaluate _ _ inner).bind fun _ => erases_pure _
      | printStmt inner => exact (hevaluate _ _ inner).bind fun _ => runs_plain _
      | varDecl name initializer =>
        dsimp only
        split
        · exact runs_plain _
        · exact (hevaluate _ _ initializer).bind fun _ => runs_plain _
      | block statements =>
        refine (runs_plain get).bind fun m => (runs_addScope _ _ _).bind fun scope => ?_
        exact hblock _ _ _ _
      | ifElse condition thenBranch elseBranch =>
        refine (hevaluate _ _ condition).bind fun value => (runs_plain _).bind fun _ => ?_
        split
        · exact hexecute _ _ thenBranch
        · split
          · exact erases_pure _
          · exact hexecute _ _ elseBranch
      | whileLoop condition body =>
        exact runs_repeatWhile (hevaluate _ _ condition) (hexecute _ _ body) rounds
      | funDecl name params body => exact runs_declareFunction _ _ _
      | returnStmt keyword value =>
        dsimp only
        split
        · exact erases_pure _
        · exact (hevaluate _ _ value).bind fun _ => erases_pure _
      | classDecl name parent methods => exact runs_declareClass (hevaluate _ _) _ _ _ _ _
      | _ => exact erases_throw _
    · unfold executeBlock Exec.executeBlock
      refine runs_inScope ((runs_plain _).bind fun items => ?_) r
      exact runs_executeEach (fun i t => hexecute _ _ t) items 0
    · unfold call Exec.call
      cases v with
      | native f =>
        cases f with
        | clock =>
          exact (runs_plain _).bind fun _ => runs_plain _
      | function r => exact runs_callFunction hblock _ _ _
      | cls c => exact runs_callClass (fun v => hcall v _ _) _ _ _
      | _ => exact runs_plain _

end Watch

end LoxLang
