import LoxLang.Session

/-!
# Judgements on the machine

Many properties of a run say something of each step of the machine and go through a sequence of
steps, whatever the tree and whatever the machine. A `Judgement` is such a property, given by its
rules for the steps that change the machine. It then holds of the four walks (`Judgement.walks`).

Whether a class with a superclass can be stopped half made is told by its tree (`Tree.strands`), and
a judgement may depend on it. A judgement on the steps of a session holds of the ways to run a
program (`Session.Judgement.step`).
-/

namespace LoxLang

namespace Tree

/-- A name can be read off the tree. -/
def isNamed (t : Tree) : Bool :=
  match t.nameToken with
  | .ok found => found.name.isOk
  | .error _ => false

/-- The slot holds a sequence of methods that all have names. -/
def methodsNamed (methods : Tree) : Bool :=
  match methods.asItems with
  | .ok items => items.all isNamed
  | .error _ => false

/-- Outside of its blocks, the statement declares a class that has a superclass and methods that
cannot be made. -/
def strands : Tree → Bool
  | classDecl _ parent methods => !parent.isNull && !methods.methodsNamed
  | ifElse _ thenBranch elseBranch => thenBranch.strands || elseBranch.strands
  | whileLoop _ body => body.strands
  | _ => false

end Tree

namespace Exec

/-- The computation does not depend on the trace or its detail. -/
def Untraced {α : Type} (f : Machine → α) : Prop :=
  ∀ (m : Machine) detail trace, f { m with detail := detail, trace := trace } = f m

/-- The change keeps the globals, the scopes, the current scope and the trace, and does not depend
on the trace. -/
structure Inner (g : Machine → Machine) : Prop where
  globals : ∀ m, (g m).globals = m.globals
  current : ∀ m, (g m).current = m.current
  scopes : ∀ m, (g m).store.scopes = m.store.scopes
  commutes : ∀ (m : Machine) detail trace, g { m with detail := detail, trace := trace } =
    { g m with detail := detail, trace := trace }

/-- The property goes through sequences of steps and holds of those that change the machine. With
`true` it may be weaker, where a class is stopped half made. -/
structure Rules (J : Bool → (α : Type) → Exec α → Prop) : Prop where
  pure : ∀ {b : Bool} {α : Type} (a : α), J b α (pure a)
  throw : ∀ {b : Bool} {α : Type} (e : Stop), J b α (throw e)
  bind : ∀ {b : Bool} {α β : Type} {x : Exec α} {f : α → Exec β}, J b α x →
    (∀ a, J b β (f a)) → J b β (x >>= f)
  mono : ∀ {b b' : Bool} {α : Type} {x : Exec α}, J b α x → (b = true → b' = true) → J b' α x
  look : ∀ {b : Bool} {β : Type} {f : Machine → Exec β}, (∀ m, J b β (f m)) → Untraced f →
    J b β (get >>= f)
  note : ∀ {b : Bool} {level : Nat} {line : Machine → Except Fault String},
    0 < level ∧ level ≤ 3 → Untraced line → J b Unit (note level line)
  modify : ∀ {b : Bool} {g : Machine → Machine}, Inner g → J b PUnit (modify g)
  define : ∀ {b : Bool} name value, J b Unit (define name value)
  defineIn : ∀ {b : Bool} r name value, J b Unit (defineIn r name value)
  addScope : ∀ {b : Bool} enclosing, J b ScopeRef (addScope enclosing)
  addFunction : ∀ {b : Bool} f, J b FunctionRef (addFunction f)
  addObject : ∀ {b : Bool} o, J b ObjectRef (addObject o)
  bindMethod : ∀ {b : Bool} r this, J b FunctionRef (bindMethod r this)
  inScope : ∀ {b b' : Bool} {α : Type} {x : Exec α}, J b' α x → ∀ r, J b α (inScope r x)
  overflowAt : ∀ {b : Bool} {α : Type} {x : Exec α} {slot : Tree}, J b α x →
    J b α (raise slot .stackOverflow) → J b α (overflowAt slot x)

/-- The property also holds of making a class. -/
structure Judgement (J : Bool → (α : Type) → Exec α → Prop) : Prop extends Rules J where
  declareClass : ∀ {evaluate : Tree → Exec Value}, (∀ t, J false Value (evaluate t)) →
    ∀ slot parent methods, J (!parent.isNull && !methods.methodsNamed) Completion
      (declareClass evaluate slot parent methods)

namespace Rules

variable {J : Bool → (α : Type) → Exec α → Prop} (h : Rules J) {b : Bool} {α β : Type}
include h

/-- A step that never strands may be said to strand. -/
theorem weaken {x : Exec α} (hx : J false α x) : J b α x :=
  h.mono hx nofun

/-! ## Steps -/

theorem lift (r : Except Fault α) : J b α (lift r) := by
  cases r with
  | ok a => exact h.pure a
  | error fault => exact h.throw _

theorem orStop (r : Except RuntimeError α) : J b α (orStop r) := by
  cases r with
  | ok a => exact h.pure a
  | error error => exact h.throw _

theorem raise (slot : Tree) (cause : RuntimeCause) : J b α (raise slot cause) := by
  unfold Exec.raise
  split
  · exact h.throw _
  · split
    · exact h.throw _
    · exact h.throw _

theorem orRaise (slot : Tree) (r : Except RuntimeCause α) : J b α (orRaise slot r) := by
  cases r with
  | ok a => exact h.pure a
  | error cause => exact h.raise slot cause

/-- A slot is read. -/
theorem read {r : Except Fault α} {f : α → Exec β} (hf : ∀ a, J b β (f a)) :
    J b β (Exec.lift r >>= f) :=
  h.bind (h.lift r) hf

theorem lookUp (slot : Tree) (depth : Option Nat) : J b Value (lookUp slot depth) := by
  refine h.read fun t => h.read fun name => h.look (fun m => ?_) fun _ _ _ => rfl
  cases depth with
  | some distance => exact h.lift _
  | none => exact h.orStop _

theorem assign (slot : Tree) (depth : Option Nat) (value : Value) :
    J b Unit (assign slot depth value) := by
  refine h.read fun t => h.read fun name => ?_
  refine h.bind (h.look (fun m => ?_) fun _ _ _ => rfl) fun r => h.defineIn r name value
  cases depth with
  | some distance => exact h.lift _
  | none => exact h.orStop _

theorem functionAt (r : FunctionRef) : J b Function (functionAt r) := by
  refine h.look (fun m => ?_) fun _ _ _ => rfl
  split
  · exact h.pure _
  · exact h.throw _

theorem objectAt (r : ObjectRef) : J b Object (objectAt r) := by
  refine h.look (fun m => ?_) fun _ _ _ => rfl
  split
  · exact h.pure _
  · exact h.throw _

theorem methodOf (c : ClassRef) (name : Name) (line : Json) (this : Value) :
    J b Value (methodOf c name line this) := by
  refine h.look (fun m => ?_) fun _ _ _ => rfl
  split
  · exact h.bind (h.bindMethod _ _) fun r => h.pure _
  · exact h.throw _

theorem property (r : ObjectRef) (slot : Tree) : J b Value (property r slot) := by
  refine h.read fun t => h.read fun name => h.bind (h.objectAt r) fun o => ?_
  split
  · exact h.pure _
  · exact h.methodOf _ _ _ _

theorem setField (r : ObjectRef) (slot : Tree) (value : Value) :
    J b Unit (setField r slot value) :=
  h.read fun _ => h.modify ⟨fun _ => rfl, fun _ => rfl, fun _ => rfl, fun _ _ _ => rfl⟩

theorem superMethod (method : Tree) (depth : Option Nat) :
    J b Value (superMethod method depth) := by
  cases depth with
  | none => exact h.throw _
  | some distance =>
    refine h.look (fun m => h.read fun parent => h.read fun this => ?_) fun _ _ _ => rfl
    split
    · exact h.read fun t => h.read fun name => h.methodOf _ _ _ _
    · exact h.throw _

theorem unary (operator : Tree) (right : Value) : J b Value (unary operator right) :=
  h.read fun _ => h.orRaise _ _

theorem binary (operator : Tree) (left right : Value) : J b Value (binary operator left right) :=
  h.read fun _ => h.orRaise _ _

theorem decidesLeft (operator : Tree) (left : Value) : J b Bool (decidesLeft operator left) :=
  h.read fun _ => h.pure _

theorem checkArity (paren : Tree) (expected got : Nat) :
    J b Unit (checkArity paren expected got) := by
  unfold Exec.checkArity
  split
  · exact h.pure ()
  · exact h.raise _ _

theorem routineOf (f : Function) : J b (List Tree × Tree) (routineOf f) :=
  h.read fun _ => h.read fun _ => h.pure _

theorem classArity (initializer : Option FunctionRef) : J b Nat (classArity initializer) := by
  cases initializer with
  | none => exact h.pure 0
  | some r => exact h.bind (h.functionAt r) fun f => h.bind (h.routineOf f) fun _ => h.pure _

theorem bindParameters (r : ScopeRef) :
    ∀ params values, J b Unit (bindParameters r params values)
  | [], _ => h.pure ()
  | _ :: _, [] => h.pure ()
  | _ :: params, _ :: values =>
    h.read fun _ => h.bind (h.defineIn _ _ _) fun _ => bindParameters r params values

theorem declareVar (slot : Tree) (value : Value) : J b Completion (declareVar slot value) :=
  h.read fun _ => h.bind (h.define _ _) fun _ =>
    h.bind (h.note (by decide) fun _ _ _ => rfl) fun _ => h.pure _

theorem declareFunction (declaration slot : Tree) :
    J b Completion (declareFunction declaration slot) := by
  refine h.read fun name => h.look (fun m => ?_) fun _ _ _ => rfl
  refine h.bind (h.addFunction _) fun r => h.bind (h.define _ _) fun _ => ?_
  exact h.bind (h.note (by decide) fun _ _ _ => rfl) fun _ => h.pure _

theorem readClock : J b Value readClock := by
  refine h.look (fun m => h.bind (h.modify ?_) fun _ => h.pure _) fun _ _ _ => rfl
  exact ⟨fun _ => rfl, fun _ => rfl, fun _ => rfl, fun _ _ _ => rfl⟩

theorem printValue (value : Value) : J b Completion (printValue value) := by
  refine h.look (fun m => h.read fun text => ?_) fun _ _ _ => rfl
  refine h.bind (h.modify ?_) fun _ => h.pure _
  exact ⟨fun _ => rfl, fun _ => rfl, fun _ => rfl, fun _ _ _ => rfl⟩

/-! ## Steps around other computations -/

theorem evaluateEach {evaluate : Tree → Exec Value} (he : ∀ t, J b Value (evaluate t)) :
    ∀ ts done, J b (List Value) (evaluateEach evaluate done ts)
  | [], _ => h.pure _
  | t :: ts, _ => h.bind (he t) fun _ => evaluateEach he ts _

/-- Statements one after the other. -/
theorem executeEach {execute : Tree → Exec Completion} (he : ∀ t, J b Completion (execute t))
    (ts : List Tree) : J b Completion (executeEach execute ts) := by
  induction ts with
  | nil => exact h.pure _
  | cons t ts ih =>
    unfold Exec.executeEach
    split
    · exact ih
    · refine h.bind (he t) fun completion => ?_
      cases completion with
      | normal => exact ih
      | returned value => exact h.pure _

/-- A loop, by induction on its rounds. -/
theorem repeatWhile {condition : Exec Value} {body : Exec Completion}
    (hc : J b Value condition) (hb : J b Completion body) (rounds : Nat) :
    J b Completion (repeatWhile condition body rounds) := by
  induction rounds with
  | zero => exact h.throw _
  | succ rounds ih =>
    refine h.bind hc fun value => ?_
    split
    · refine h.bind hb fun completion => ?_
      cases completion with
      | normal => exact ih
      | returned value => exact h.pure _
    · exact h.pure _

/-- A call of a function, from the judgement of its body. -/
theorem callFunction {executeBlock : Tree → ScopeRef → Exec Completion}
    (he : ∀ t r, J b Completion (executeBlock t r)) (r : FunctionRef) (arguments : List Value)
    (paren : Tree) : J b Value (callFunction executeBlock r arguments paren) := by
  refine h.bind (h.functionAt r) fun f => h.bind (h.routineOf f) fun (params, body) => ?_
  refine h.bind (h.checkArity _ _ _) fun _ => ?_
  refine h.bind (h.note (by decide) fun _ _ _ => rfl) fun _ => ?_
  refine h.bind (h.addScope _) fun scope => h.bind (h.bindParameters _ _ _) fun _ => ?_
  refine h.bind (he body scope) fun completion => ?_
  split
  · exact h.look (fun m => h.lift _) fun _ _ _ => rfl
  · exact h.pure _

theorem callClass {call : Value → Exec Value} (hc : ∀ v, J b Value (call v)) (c : ClassRef)
    (arguments : List Value) (paren : Tree) : J b Value (callClass call c arguments paren) := by
  refine h.look (fun m => h.bind (h.classArity _) fun arity => ?_) fun _ _ _ => rfl
  refine h.bind (h.checkArity _ _ _) fun _ => h.bind (h.addObject _) fun o => ?_
  split
  · exact h.pure _
  · exact h.bind (h.bindMethod _ _) fun _ => h.bind (hc _) fun _ => h.pure _

theorem superclass {evaluate : Tree → Exec Value} (he : ∀ t, J b Value (evaluate t))
    (parent : Tree) : J b (Option ClassRef) (superclass evaluate parent) := by
  unfold Exec.superclass
  split
  · exact h.pure none
  · refine h.bind (he parent) fun value => ?_
    split
    · exact h.pure _
    · exact h.read fun slot => h.raise _ _

end Rules

/-! ## The four walks -/

/-- The walks over any tree. Only the statements that strand may be judged so. -/
theorem Judgement.walks {J : Bool → (α : Type) → Exec α → Prop} (h : Judgement J)
    (rounds room : Nat) :
    (∀ t, J false Value (evaluate rounds room t)) ∧
    (∀ t, J t.strands Completion (execute rounds room t)) ∧
    (∀ t r, J false Completion (executeBlock rounds room t r)) ∧
    ∀ v arguments paren, J false Value (call rounds room v arguments paren) := by
  induction room with
  | zero =>
    refine ⟨fun t => ?_, fun t => ?_, fun t r => ?_, fun v arguments paren => ?_⟩
    · unfold evaluate
      exact h.throw _
    · unfold execute
      exact h.throw _
    · unfold executeBlock
      exact h.throw _
    · unfold call
      exact h.throw _
  | succ room ih =>
    obtain ⟨hevaluate, hexecute, hblock, hcall⟩ := ih
    refine ⟨fun t => ?_, fun t => ?_, fun t r => ?_, fun v arguments paren => ?_⟩
    · unfold evaluate
      cases t with
      | literal => exact h.pure _
      | grouping inner => exact hevaluate inner
      | unary operator right => exact h.bind (hevaluate right) fun _ => h.unary _ _
      | binary left operator right =>
        exact h.bind (hevaluate left) fun _ => h.bind (hevaluate right) fun _ => h.binary _ _ _
      | logical left operator right =>
        refine h.bind (hevaluate left) fun _ => h.bind (h.decidesLeft _ _) fun decided => ?_
        cases decided with
        | true => exact h.pure _
        | false => exact hevaluate right
      | ident | thisRef => exact h.lookUp _ _
      | assign name value depth =>
        exact h.bind (hevaluate value) fun _ => h.bind (h.assign _ _ _) fun _ => h.pure _
      | call callee paren arguments =>
        refine h.bind (hevaluate callee) fun _ => h.read fun items => ?_
        refine h.bind (h.evaluateEach hevaluate items _) fun _ => ?_
        exact h.overflowAt (hcall _ _ _) (h.raise _ _)
      | getField object name =>
        refine h.bind (hevaluate object) fun value => ?_
        cases value with
        | object r => exact h.property _ _
        | _ => exact h.raise _ _
      | setField object name value =>
        refine h.bind (hevaluate object) fun target => ?_
        cases target with
        | object r =>
          exact h.bind (hevaluate value) fun _ => h.bind (h.setField _ _ _) fun _ => h.pure _
        | _ => exact h.raise _ _
      | superRef keyword method depth => exact h.superMethod _ _
      | _ => exact h.throw _
    · unfold execute
      cases t with
      | exprStmt inner => exact h.bind (h.weaken (hevaluate inner)) fun _ => h.pure _
      | printStmt inner => exact h.bind (h.weaken (hevaluate inner)) fun _ => h.printValue _
      | varDecl name initializer =>
        dsimp only
        split
        · exact h.declareVar _ _
        · exact h.bind (h.weaken (hevaluate initializer)) fun _ => h.declareVar _ _
      | block statements =>
        refine h.look (fun m => h.bind (h.addScope _) fun scope => ?_) fun _ _ _ => rfl
        exact h.weaken (hblock _ _)
      | ifElse condition thenBranch elseBranch =>
        refine h.bind (h.weaken (hevaluate condition)) fun value => ?_
        refine h.bind (h.note (by decide) fun _ _ _ => rfl) fun _ => ?_
        split
        · exact h.mono (hexecute thenBranch) fun hs => by rw [Tree.strands, hs, Bool.true_or]
        · split
          · exact h.pure _
          · exact h.mono (hexecute elseBranch) fun hs => by rw [Tree.strands, hs, Bool.or_true]
      | whileLoop condition body =>
        exact h.repeatWhile (h.weaken (hevaluate condition))
          (h.mono (hexecute body) fun hs => by rw [Tree.strands, hs]) rounds
      | funDecl name params body => exact h.declareFunction _ _
      | returnStmt keyword value =>
        dsimp only
        split
        · exact h.pure _
        · exact h.bind (h.weaken (hevaluate value)) fun _ => h.pure _
      | classDecl name parent methods => exact h.declareClass hevaluate _ _ _
      | _ => exact h.throw _
    · unfold executeBlock
      have heach (items : List Tree) :
          J true Completion (Exec.executeEach (execute rounds room) items) :=
        h.executeEach (fun t => h.mono (hexecute t) fun _ => rfl) items
      exact h.inScope (h.read heach) r
    · unfold call
      cases v with
      | native f =>
        cases f with
        | clock =>
          exact h.bind (h.checkArity _ _ _) fun _ => h.readClock
      | function r => exact h.callFunction hblock _ _ _
      | cls c => exact h.callClass (fun v => hcall v _ _) _ _ _
      | _ => exact h.raise _ _

end Exec

/-! ## Sessions -/

/-- The ways to run a program. -/
inductive Launch where
  | source (text : String)
  /-- A source with all names global. -/
  | unresolved (text : String)
  | document (json : Json)
  /-- A document with all names global. -/
  | documentUnresolved (json : Json)

namespace Launch

/-- A launch, as a step of the session. -/
def step : Launch → Step Unit
  | source text => Session.run text
  | unresolved text => Session.runUnresolved text
  | document json => Session.runDocument json
  | documentUnresolved json => Session.runDocumentUnresolved json

/-- The statements that are executed: none of them if a static problem has been reported. -/
def unlessError (statements : List Tree) : Step (List Tree) := do
  if (← get).reporter.hadError then return [] else return statements

/-- What comes before the execution of a program. -/
def prepare : Launch → Step (List Tree)
  | source text => do
    let statements ← Session.read text
    if (← get).reporter.hadError then return []
    else do
      let resolved ← Session.resolveNames statements
      unlessError resolved
  | unresolved text => do
    Session.report (scan text).problems.toList
    Session.report ((parse? (scan text).finish).getD {}).problems
    unlessError ((parse? (scan text).finish).getD {}).statements
  | document json => do
    let tree ← Session.load json
    let statements ← Session.liftFault tree.asItems
    let resolved ← Session.resolveNames statements
    unlessError resolved
  | documentUnresolved json => do
    let tree ← Session.load json
    if (← get).reporter.hadError then return [] else Session.liftFault tree.asItems

theorem executeUnlessError_eq (ts : List Tree) :
    Session.executeUnlessError ts = unlessError ts >>= Session.execute := by
  unfold Session.executeUnlessError unlessError
  rw [bind_assoc]
  refine congrArg (get >>= ·) (funext fun s => ?_)
  split
  · rw [pure_bind]
    rfl
  · rw [pure_bind]

/-- A run prepares the statements and executes them. -/
theorem step_eq (launch : Launch) : launch.step = launch.prepare >>= Session.execute := by
  cases launch with
  | source text =>
    show Session.run text = _
    simp only [Session.run, prepare, bind_assoc, executeUnlessError_eq]
    refine congrArg (Session.read text >>= ·) (funext fun ts => ?_)
    refine congrArg (get >>= ·) (funext fun s => ?_)
    split
    · rw [pure_bind]
      rfl
    · rw [bind_assoc]
  | unresolved text =>
    show Session.runUnresolved text = _
    simp only [Session.runUnresolved, prepare, bind_assoc, executeUnlessError_eq]
  | document json =>
    show Session.runDocument json = _
    simp only [Session.runDocument, prepare, bind_assoc, executeUnlessError_eq]
  | documentUnresolved json =>
    show Session.runDocumentUnresolved json = _
    simp only [Session.runDocumentUnresolved, prepare, bind_assoc]
    refine congrArg (Session.load json >>= ·) (funext fun tree => ?_)
    refine congrArg (get >>= ·) (funext fun s => ?_)
    split
    · rw [pure_bind]
      rfl
    · rfl

end Launch

namespace Session

/-- The change is one of the reporter and of the numbers of literals. -/
structure Outer (g : Session → Session) : Prop where
  machine : ∀ s, ∃ serial, (g s).machine = { s.machine with serial }
  commutes : ∀ (s : Session) detail trace,
    g { s with machine := { s.machine with detail := detail, trace := trace } } =
      { g s with machine := { (g s).machine with detail := detail, trace := trace } }

/-- The property goes through sequences of steps and holds of those that do not execute. -/
structure Rules (J : (α : Type) → Step α → Prop) : Prop where
  pure : ∀ {α : Type} (a : α), J α (pure a)
  throw : ∀ {α : Type} (e : Abort), J α (throw e)
  bind : ∀ {α β : Type} {x : Step α} {f : α → Step β}, J α x → (∀ a, J β (f a)) → J β (x >>= f)
  look : ∀ {β : Type} {f : Session → Step β}, (∀ s, J β (f s)) → (∀ (s : Session) detail trace,
    f { s with machine := { s.machine with detail := detail, trace := trace } } = f s) →
    J β (get >>= f)
  note : ∀ line, J Unit (note line)
  modify : ∀ {g : Session → Session}, Outer g → J PUnit (modify g)

/-- The property also holds of executing a statement, where a malformed tree is handed on. -/
structure Judgement (J : (α : Type) → Step α → Prop) : Prop extends Rules J where
  onMachine : ∀ (t : Tree) {f : Except Stop Completion → Step Unit}, (∀ result, J Unit (f result)) →
    (∀ fault s, f (.error (.fault fault)) s = .error (.fault fault) s) →
    J Unit (onMachine t >>= f)

section Rules

variable {J : (α : Type) → Step α → Prop} {α : Type}

namespace Rules

variable (h : Rules J)
include h

theorem report (ds : List Diagnostic) : J Unit (report ds) :=
  h.modify ⟨fun s => ⟨s.machine.serial, rfl⟩, fun _ _ _ => rfl⟩

theorem fail (error : RuntimeError) : J Unit (fail error) :=
  h.bind (h.note _) fun _ => h.report _

theorem liftFault (r : Except Fault α) : J α (liftFault r) := by
  cases r with
  | ok a => exact h.pure a
  | error fault => exact h.throw _

theorem load (document : Json) : J Tree (load document) := by
  have hlift (r : Except Tree.LoadError Tree) : J Tree (liftLoad r) := by
    cases r with
    | ok a => exact h.pure a
    | error e => exact h.throw _
  refine h.bind (hlift _) fun tree => h.look (fun s => ?_) fun _ _ _ => rfl
  exact h.bind (h.modify ⟨fun s => ⟨_, rfl⟩, fun _ _ _ => rfl⟩) fun _ => h.pure _

theorem resolveNames (ts : List Tree) : J (List Tree) (resolveNames ts) := by
  refine h.bind (h.report _) fun _ => ?_
  split
  · exact h.throw _
  · exact h.bind (h.note _) fun _ => h.pure _

theorem read (source : String) : J (List Tree) (read source) :=
  h.bind (h.report _) fun _ => h.bind (h.note _) fun _ =>
    h.bind (h.report _) fun _ => h.bind (h.note _) fun _ => h.pure _

/-- The part of a launch before any statement runs. -/
theorem prepare (launch : Launch) : J (List Tree) launch.prepare := by
  have hunless (ts : List Tree) : J (List Tree) (Launch.unlessError ts) := by
    refine h.look (fun s => ?_) fun _ _ _ => rfl
    split
    · exact h.pure _
    · exact h.pure _
  cases launch with
  | source text =>
    refine h.bind (h.read text) fun statements => h.look (fun s => ?_) fun _ _ _ => rfl
    split
    · exact h.pure _
    · exact h.bind (h.resolveNames _) hunless
  | unresolved text =>
    exact h.bind (h.report _) fun _ => h.bind (h.report _) fun _ => hunless _
  | document json =>
    refine h.bind (h.load json) fun tree => h.bind (h.liftFault _) fun statements => ?_
    exact h.bind (h.resolveNames _) hunless
  | documentUnresolved json =>
    refine h.bind (h.load json) fun tree => h.look (fun s => ?_) fun _ _ _ => rfl
    split
    · exact h.pure _
    · exact h.liftFault _

end Rules

/-- The statements of a program. -/
theorem Judgement.execute (h : Judgement J) (ts : List Tree) : J Unit (execute ts) := by
  induction ts with
  | nil => exact h.pure ()
  | cons t ts ih =>
    unfold Session.execute
    split
    · exact ih
    · refine h.onMachine t (fun result => ?_) fun _ _ => rfl
      cases result with
      | ok _ => exact ih
      | error stop =>
        cases stop with
        | runtime | overflow => exact h.fail _
        | fault | unfinished => exact h.throw _

/-- Each way to run a program. -/
theorem Judgement.step (h : Judgement J) (launch : Launch) : J Unit launch.step := by
  rw [launch.step_eq]
  exact h.bind (h.prepare launch) h.execute

end Rules

end Session

end LoxLang
