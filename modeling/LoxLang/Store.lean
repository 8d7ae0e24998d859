import LoxLang.Tree.Printer
import LoxLang.Value

/-!
# The store

All scopes, functions, classes and objects of a running program. Things are only ever added. A scope
knows the scope around it and a class its superclass, both of which are older than itself, so every
walk outwards (`Store.chain`) or up (`Store.findMethod?`) ends.

A name is looked up either by walking outwards from a scope (`lookup`, `assign`) or in the scope
that is a given number of steps out (`lookupAt`, `assignAt`).
-/

namespace LoxLang

/-- The names of a block or a call, and the scope around it. -/
structure Scope where
  enclosing : Option ScopeRef := none
  bindings : Bindings Name Value := .empty
deriving Inhabited

/-- A function with the scope that it was made in. -/
structure Function where
  name : Name
  declaration : Tree
  closure : ScopeRef
  isInitializer : Bool := false

/-- A class with its own methods. -/
structure Class where
  name : Name
  superclass : Option ClassRef
  methods : Bindings Name FunctionRef

/-- An object and its fields. -/
structure Object where
  cls : ClassRef
  fields : Bindings Name Value := .empty

/-- All scopes, functions, classes and objects that were ever made. -/
structure Store where
  scopes : Array Scope := #[]
  functions : Array Function := #[]
  classes : Array Class := #[]
  objects : Array Object := #[]
deriving Inhabited

namespace Store

/-! ## Scopes -/

/-- The scope that a reference stands for. -/
def scope (s : Store) (r : ScopeRef) : Scope :=
  s.scopes.getD r.index {}

/-- The scope around a scope. -/
def enclosing? (s : Store) (r : ScopeRef) : Option ScopeRef :=
  (s.scope r).enclosing

/-- What a name is bound to in one scope. -/
def bound? (s : Store) (r : ScopeRef) (name : Name) : Option Value :=
  (s.scope r).bindings.find? name

/-- Add an empty scope. -/
def addScope (s : Store) (enclosing : Option ScopeRef) : ScopeRef × Store :=
  (⟨s.scopes.size⟩, { s with scopes := s.scopes.push { enclosing } })

/-- Bind a name in a scope, whether it is bound there or not. -/
def define (s : Store) (r : ScopeRef) (name : Name) (value : Value) : Store :=
  { s with scopes := s.scopes.modify r.index fun scope =>
      { scope with bindings := scope.bindings.insert name value } }

/-- A scope and the scopes around it, from the inside out. -/
def chain (s : Store) (r : ScopeRef) : List ScopeRef :=
  match s.enclosing? r with
  | some e => if e.index < r.index then r :: s.chain e else [r]
  | none => [r]
termination_by r.index

/-- The innermost scope that binds a name. -/
def holder? (s : Store) (r : ScopeRef) (name : Name) : Option ScopeRef :=
  (s.chain r).find? fun r => (s.bound? r name).isSome

/-- The error at a line for a name that is not bound. -/
def undefined (name : Name) (line : Json) : RuntimeError :=
  ⟨.undefinedVariable name.text, line⟩

/-- The innermost scope that binds a name, which must be bound. -/
def holder (s : Store) (r : ScopeRef) (name : Name) (line : Json) : Except RuntimeError ScopeRef :=
  match s.holder? r name with
  | some h => .ok h
  | none => .error (undefined name line)

/-- What a name is bound to, from a scope outwards. -/
def lookup? (s : Store) (r : ScopeRef) (name : Name) : Option Value :=
  (s.chain r).findSome? fun r => s.bound? r name

/-- Look a name up from a scope outwards. -/
def lookup (s : Store) (r : ScopeRef) (name : Name) (line : Json) : Except RuntimeError Value :=
  match s.lookup? r name with
  | some value => .ok value
  | none => .error (undefined name line)

/-- Rebind a name in the innermost scope that binds it. -/
def assign (s : Store) (r : ScopeRef) (name : Name) (line : Json) (value : Value) :
    Except RuntimeError Store :=
  (s.holder r name line).map fun h => s.define h name value

/-- The scope a number of steps out. One step beyond the outermost scope there is none, and further
steps are a fault. -/
def ancestor (s : Store) : Nat → Option ScopeRef → Except Fault (Option ScopeRef)
  | 0, r => .ok r
  | _ + 1, none => .error .missingSlot
  | distance + 1, some r => s.ancestor distance (s.enclosing? r)

/-- The scope a number of steps out, which must exist. -/
def scopeAt (s : Store) (distance : Nat) (r : ScopeRef) : Except Fault ScopeRef :=
  match s.ancestor distance (some r) with
  | .ok (some a) => .ok a
  | _ => .error .missingSlot

/-- The value of a name in the scope at a distance. -/
def lookupAt (s : Store) (distance : Nat) (r : ScopeRef) (name : Name) : Except Fault Value :=
  match s.scopeAt distance r with
  | .error fault => .error fault
  | .ok a =>
    match s.bound? a name with
    | some value => .ok value
    | none => .error .unboundName

/-- Change the value of a name in the scope at a distance. -/
def assignAt (s : Store) (distance : Nat) (r : ScopeRef) (name : Name) (value : Value) :
    Except Fault Store :=
  match s.scopeAt distance r with
  | .error fault => .error fault
  | .ok a => .ok (s.define a name value)

/-- The number of scopes around a scope. -/
def depth (s : Store) (r : ScopeRef) : Nat :=
  (s.chain r).length - 1

/-- Names in brackets, in order. -/
def namesText (names : List Name) : Except Fault String :=
  match Name.sorted? names with
  | some sorted => .ok ("[" ++ ", ".intercalate (sorted.map Name.shown) ++ "]")
  | none => .error .notComparable

/-- A scope in one line: how deep it is, and the names it binds. -/
def describe (s : Store) (r : ScopeRef) : Except Fault String := do
  let names ← namesText (s.scope r).bindings.keys
  return "<Environment depth=" ++ toString (s.depth r) ++ " names=" ++ names ++ ">"

/-! Binding a name changes one scope and no link, and a new scope changes none. -/

theorem scope_define_of_ne (s : Store) {r r' : ScopeRef} (h : r ≠ r') (name : Name)
    (value : Value) : (s.define r name value).scope r' = s.scope r' := by
  have hi : r.index ≠ r'.index := fun hi => h (by cases r; cases r'; simp_all)
  simp [scope, define, Array.getD_eq_getD_getElem?, Array.getElem?_modify, hi]

theorem scope_define_self (s : Store) {r : ScopeRef} (h : r.index < s.scopes.size) (name : Name)
    (value : Value) :
    (s.define r name value).scope r =
      { s.scope r with bindings := (s.scope r).bindings.insert name value } := by
  simp [scope, define, Array.getD_eq_getD_getElem?, Array.getElem_modify, h]

@[simp] theorem enclosing?_define (s : Store) (r r' : ScopeRef) (name : Name) (value : Value) :
    (s.define r name value).enclosing? r' = s.enclosing? r' := by
  simp only [enclosing?, scope, define, Array.getD_eq_getD_getElem?, Array.getElem?_modify]
  split
  · cases s.scopes[r'.index]? <;> rfl
  · rfl

@[simp] theorem chain_define (s : Store) (r : ScopeRef) (name : Name) (value : Value)
    (r' : ScopeRef) : (s.define r name value).chain r' = s.chain r' := by
  fun_induction chain s r' with
  | case1 r' e he hlt ih => rw [chain]; simp [he, hlt, ih]
  | case2 r' e he hlt => rw [chain]; simp [he, hlt]
  | case3 r' he => rw [chain]; simp [he]

/-- What a name is bound to after a name was bound. -/
theorem bound?_define (s : Store) {r : ScopeRef} (h : r.index < s.scopes.size) (name : Name)
    (value : Value) (r' : ScopeRef) (other : Name) :
    (s.define r name value).bound? r' other =
      if r = r' ∧ name == other then some value else s.bound? r' other := by
  by_cases hr : r = r'
  · subst hr
    simp [bound?, scope_define_self s h, Bindings.find?_insert]
  · simp [bound?, scope_define_of_ne s hr, hr]

theorem scope_addScope_of_lt (s : Store) (enclosing : Option ScopeRef) {r : ScopeRef}
    (h : r.index < s.scopes.size) : (s.addScope enclosing).2.scope r = s.scope r := by
  simp [scope, addScope, Array.getD_eq_getD_getElem?, Array.getElem?_push_lt, h]

theorem scope_addScope_self (s : Store) (enclosing : Option ScopeRef) :
    (s.addScope enclosing).2.scope (s.addScope enclosing).1 = { enclosing } := by
  simp [scope, addScope]

/-! ## Functions, classes and objects -/

/-- Add a function. -/
def addFunction (s : Store) (f : Function) : FunctionRef × Store :=
  (⟨s.functions.size⟩, { s with functions := s.functions.push f })

/-- Add a class. -/
def addClass (s : Store) (c : Class) : ClassRef × Store :=
  (⟨s.classes.size⟩, { s with classes := s.classes.push c })

/-- Add an object. -/
def addObject (s : Store) (o : Object) : ObjectRef × Store :=
  (⟨s.objects.size⟩, { s with objects := s.objects.push o })

/-- The function that a reference stands for. -/
def function? (s : Store) (r : FunctionRef) : Option Function :=
  s.functions[r.index]?

/-- The class that a reference stands for. -/
def class? (s : Store) (r : ClassRef) : Option Class :=
  s.classes[r.index]?

/-- The object that a reference stands for. -/
def object? (s : Store) (r : ObjectRef) : Option Object :=
  s.objects[r.index]?

/-- Set a field of an object. -/
def setField (s : Store) (r : ObjectRef) (name : Name) (value : Value) : Store :=
  { s with objects := s.objects.modify r.index fun o =>
      { o with fields := o.fields.insert name value } }

/-- A method of a class, or of the nearest superclass that has it. -/
def findMethod? (s : Store) (r : ClassRef) (name : Name) : Option FunctionRef :=
  match s.class? r with
  | none => none
  | some c =>
    match c.methods.find? name, c.superclass with
    | some method, _ => some method
    | none, some p => if p.index < r.index then s.findMethod? p name else none
    | none, none => none
termination_by r.index

/-- The method as a function of its own, made inside a scope that binds `this`. -/
def bindMethod (s : Store) (r : FunctionRef) (this : Value) : FunctionRef × Store :=
  match s.function? r with
  | none => (r, s)
  | some f =>
    let (scope, s) := s.addScope (some f.closure)
    let s := s.define scope "this" this
    s.addFunction { f with closure := scope }

/-! ## Values as text -/

/-- The name of a function, as text. -/
def functionName (s : Store) (r : FunctionRef) : String :=
  ((s.function? r).map fun f => f.name.text).getD ""

/-- The name of a class, as text. -/
def className (s : Store) (r : ClassRef) : String :=
  ((s.class? r).map fun c => c.name.text).getD ""

/-- The text of a class, whose name must be a text. -/
def classText (s : Store) (r : ClassRef) : Except Fault String :=
  match (s.class? r).map Class.name with
  | some ⟨.str name⟩ => .ok name
  | _ => .error .notText

/-- The text that `print` writes. -/
def text (s : Store) : Value → Except Fault String
  | .scalar x => .ok x.text
  | .native _ => .ok "<native fn>"
  | .function r => .ok ("<fn " ++ s.functionName r ++ ">")
  | .cls r => s.classText r
  | .object r => .ok (((s.object? r).map fun o => s.className o.cls).getD "" ++ " instance")
  | .datum t _ => .ok t.data

/-- The texts of values, in order. -/
def texts (s : Store) : List Value → Except Fault (List String)
  | [] => .ok []
  | value :: values => do
    let head ← s.text value
    let tail ← s.texts values
    return head :: tail

end Store

/-- The kind of a value, for traces. -/
def Value.typeName : Value → String
  | scalar s => s.typeName
  | native _ => "native function"
  | function _ => "function"
  | cls _ => "class"
  | object _ => "instance"
  | datum t _ => match t with
    | .scalar s => s.typeName
    | .list _ => "list"
    | .object _ => "dict"
    | .token _ => "Token"
    | t => (t.form?.map Tree.Form.name).getD ""

end LoxLang
