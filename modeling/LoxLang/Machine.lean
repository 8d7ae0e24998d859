import LoxLang.Store

/-!
# The machine

The state of a running program: the store, the current scope, what was printed, and a trace. A
program that stops early keeps the state it has reached.

The trace is a file. Writing a line opens it if it is not open, and opening it empties it. A trace
that is blocked cannot be opened.
-/

namespace LoxLang

/-- The trace file of a session. -/
structure Trace where
  /-- The lines of the file, if there is a file. -/
  lines : Option (Array String) := none
  isOpen : Bool := false
  blocked : Bool := false
deriving Inhabited

namespace Trace

/-- Write a line. A file that is not open is begun anew. -/
def write (t : Trace) (line : String) : Trace :=
  let before := if t.isOpen then t.lines.getD #[] else #[]
  { t with lines := some (before.push line), isOpen := true }

/-- Close the file. Its lines stay. -/
def close (t : Trace) : Trace :=
  { t with isOpen := false }

/-- The contents of the file. -/
def text? (t : Trace) : Option String :=
  t.lines.map fun lines => String.join (lines.toList.map (· ++ "\n"))

end Trace

/-- What a clock shows at each of its readings, in seconds, and how often it was read. -/
structure Clock where
  reading : Nat → Float
  taken : Nat := 0
deriving Inhabited

namespace Clock

/-- A clock that always shows the same. -/
def still (seconds : Float) : Clock where
  reading _ := seconds

/-- A number stands for the clock that always shows it. -/
instance : Coe Float Clock := ⟨still⟩

/-- What the clock shows at its next reading. -/
def now (c : Clock) : Float :=
  c.reading c.taken

/-- The clock after a reading. -/
def next (c : Clock) : Clock :=
  { c with taken := c.taken + 1 }

end Clock

/-- The state of the evaluator. -/
structure Machine where
  store : Store
  globals : ScopeRef
  /-- The scope that declarations go to. -/
  current : ScopeRef
  /-- The texts printed so far, each on a line of its own. -/
  output : Array String := #[]
  trace : Trace := {}
  /-- How much is traced: the stages of a run, declarations, calls and conditions. -/
  detail : Nat := 0
  clock : Clock := .still 0
  /-- The serial number of the next literal. -/
  serial : Nat := 0
deriving Inhabited

/-- Why a run stops early. -/
inductive Stop where
  | runtime (error : RuntimeError)
  /-- Calls and trees are nested deeper than the machine can go. -/
  | overflow
  | fault (fault : Fault)
  /-- A loop has used up the rounds that it was given. -/
  | unfinished
deriving Repr

/-- Evaluation changes the machine, or it stops. -/
abbrev Exec := EStateM Stop Machine

namespace Machine

/-- A machine whose only scope binds the functions that are there from the start. -/
def initial (detail : Nat) (clock : Clock) : Machine :=
  let (globals, store) := ({} : Store).addScope none
  let store := store.define globals Native.clock.name (.native .clock)
  { store, globals, current := globals, detail, clock }

/-- Trace a line if the machine traces at this level. -/
def note (m : Machine) (level : Nat) (line : String) : Machine :=
  if level ≤ m.detail then { m with trace := m.trace.write line } else m

/-- All that was printed. -/
def printed (m : Machine) : String :=
  String.join (m.output.toList.map (· ++ "\n"))

end Machine

namespace Exec

/-- Stop with a fault. -/
def lift {α : Type} : Except Fault α → Exec α
  | .ok a => return a
  | .error fault => throw (.fault fault)

/-- Stop with a runtime error. -/
def orStop {α : Type} : Except RuntimeError α → Exec α
  | .ok a => return a
  | .error error => throw (.runtime error)

/-- Stop with an error at the token in a slot. A slot that is null has line zero. -/
def raise {α : Type} (slot : Tree) (cause : RuntimeCause) : Exec α :=
  match slot.asToken? with
  | some t => throw (.runtime ⟨cause, t.line⟩)
  | none => if slot.isNull then throw (.runtime ⟨cause, .int 0⟩) else throw (.fault .missingSlot)

/-- Stop with a runtime error at the token in a slot. -/
def orRaise {α : Type} (slot : Tree) : Except RuntimeCause α → Exec α
  | .ok a => return a
  | .error cause => raise slot cause

/-- Trace a line at a level. The line is made only if it is traced. -/
def note (level : Nat) (line : Machine → Except Fault String) : Exec Unit := do
  let m ← get
  if level ≤ m.detail then
    let text ← lift (line m)
    modify fun m => m.note level text

/-- Bind a name in the current scope. -/
def define (name : Name) (value : Value) : Exec Unit :=
  modify fun m => { m with store := m.store.define m.current name value }

/-- A new scope inside of another. -/
def addScope (enclosing : ScopeRef) : Exec ScopeRef := do
  let m ← get
  let (r, store) := m.store.addScope (some enclosing)
  set { m with store }
  return r

/-- Run in a scope, and go back to the scope before, however the run ends. -/
def inScope {α : Type} (r : ScopeRef) (run : Exec α) : Exec α := fun m =>
  let before := m.current
  match run { m with current := r } with
  | .ok a m => .ok a { m with current := before }
  | .error e m => .error e { m with current := before }

/-- An overflow inside `run` is an error at the token in a slot. -/
def overflowAt {α : Type} (slot : Tree) (run : Exec α) : Exec α := fun m =>
  match run m with
  | .error .overflow m => raise slot .stackOverflow m
  | result => result

end Exec

end LoxLang
