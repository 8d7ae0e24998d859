import LoxLang.Execution
import LoxLang.Token.Scan
import LoxLang.Tree.Document
import LoxLang.Tree.Parser
import LoxLang.Tree.Resolve
import LoxLang.Tree.Serial

/-!
# Sessions

A session runs programs one after another on one machine, so that a program finds what the programs
before it have defined. A program is scanned, parsed, resolved and executed. Once a static problem
has been reported nothing is executed until the reporter is reset.

A step of a session that meets a malformed tree is given up, and the session can go on.
-/

namespace LoxLang

/-- Why a step of a session is given up. -/
inductive Abort where
  | fault (fault : Fault)
  | load (error : Tree.LoadError)
  /-- A loop has used up the rounds that it was given. -/
  | unfinished
  /-- A line is traced, and the trace cannot be opened. -/
  | blockedTrace

/-- The state of an interpreter between two runs. -/
structure Session where
  machine : Machine
  reporter : Reporter := {}
deriving Inhabited

/-- A run changes the session, or it aborts. -/
abbrev Step := EStateM Abort Session

namespace Session

/-- How often a loop may run its body. -/
def maxRounds : Nat := 1000000000000000000

/-- A new session, with its level of detail and its clock. -/
def start (detail : Nat) (clock : Clock) : Session where
  machine := .initial detail clock

/-- A new session whose trace may be blocked. -/
def startTracing (detail : Nat) (clock : Clock) (blocked : Bool) : Session :=
  let m := Machine.initial detail clock
  { machine := { m with trace := { m.trace with blocked } } }

/-- Trace a stage of a run. -/
def note (line : String) : Step Unit := do
  let m := (← get).machine
  if m.trace.blocked && 1 ≤ m.detail then throw .blockedTrace
  modify fun s => { s with machine := s.machine.note 1 line }

/-- Report messages. -/
def report (ds : List Diagnostic) : Step Unit :=
  modify fun s => { s with reporter := s.reporter.reportAll ds }

/-! ## Execution -/

/-- An error ends a program, and is traced and reported. -/
def fail (error : RuntimeError) : Step Unit := do
  note ("runtime error: " ++ error.cause.text)
  report [.runtime error]

/-- Execute one statement of a program on the machine. -/
def onMachine (t : Tree) : Step (Except Stop Completion) := fun s =>
  let reporter := s.reporter
  match Exec.execute maxRounds Tree.maxDepth t s.machine with
  | .ok completion machine => .ok (.ok completion) ⟨machine, reporter⟩
  | .error stop machine => .ok (.error stop) ⟨machine, reporter⟩

/-- Execute the statements of a program in order until one stops with an error. A `return` ends only
the statement that it is in. -/
def execute : List Tree → Step Unit
  | [] => return ()
  | t :: ts =>
    if t.isNull then execute ts
    else do
      match ← onMachine t with
      | .ok _ => execute ts
      | .error (.runtime error) => fail error
      | .error .overflow => fail ⟨.stackOverflow, t.firstLine⟩
      | .error (.fault fault) => throw (.fault fault)
      | .error .unfinished => throw .unfinished

/-- Execute a program unless a static problem has been reported. -/
def executeUnlessError (statements : List Tree) : Step Unit := do
  if (← get).reporter.hadError then return ()
  else execute statements

/-! ## Programs -/

/-- Resolve a program, and report what is wrong with it. -/
def resolveNames (statements : List Tree) : Step (List Tree) := do
  let resolved := resolve statements
  report resolved.problems
  match resolved.statements with
  | .error fault => throw (.fault fault)
  | .ok trees => do
    note ("resolved " ++ toString resolved.found ++ " local references")
    return trees

/-- Scan and parse a program, and report what is wrong with it. -/
def read (source : String) : Step (List Tree) := do
  let found := scan source
  let tokens := found.finish
  report found.problems.toList
  note ("scanned " ++ toString tokens.length ++ " tokens")
  let parsed := (parse? tokens).getD {}
  report parsed.problems
  note ("parsed " ++ toString parsed.statements.length ++ " statements")
  return parsed.statements

/-- Run a program. -/
def run (source : String) : Step Unit := do
  let statements ← read source
  if (← get).reporter.hadError then return ()
  else do
    let resolved ← resolveNames statements
    executeUnlessError resolved

/-- Parse a program without a trace and execute it as it is, with all names global. It is for the
caller of `execute` to see that a program with a problem is not executed, and that is done here. -/
def runUnresolved (source : String) : Step Unit := do
  let found := scan source
  report found.problems.toList
  let parsed := (parse? found.finish).getD {}
  report parsed.problems
  executeUnlessError parsed.statements

/-- A document that cannot be loaded aborts the run. -/
def liftLoad {α : Type} : Except Tree.LoadError α → Step α
  | .ok a => return a
  | .error error => throw (.load error)

/-- A fault aborts the run. -/
def liftFault {α : Type} : Except Fault α → Step α
  | .ok a => return a
  | .error fault => throw (.fault fault)

/-- The tree of a document, with its literals numbered. -/
def load (document : Json) : Step Tree := do
  let tree ← liftLoad (Tree.load document)
  let (tree, serial) := tree.numbered.run (← get).machine.serial
  modify fun s => { s with machine := { s.machine with serial } }
  return tree

/-- Run the program in a document. -/
def runDocument (document : Json) : Step Unit := do
  let tree ← load document
  let statements ← liftFault tree.asItems
  let resolved ← resolveNames statements
  executeUnlessError resolved

/-- Execute the program in a document as it is, with all names global. That nothing is executed once
a problem was reported is again for this caller of `execute` to see. -/
def runDocumentUnresolved (document : Json) : Step Unit := do
  let tree ← load document
  if (← get).reporter.hadError then return ()
  else do
    let statements ← liftFault tree.asItems
    execute statements

/-! ## Between programs -/

/-- Forget the problems that were reported. -/
def reset : Step Unit :=
  modify fun s => { s with reporter := s.reporter.reset }

/-- Close the trace. -/
def close : Step Unit :=
  modify fun s => { s with machine := { s.machine with trace := s.machine.trace.close } }

/-- Take what was printed since it was last taken. -/
def takeOutput : Step String := do
  let printed := (← get).machine.printed
  modify fun s => { s with machine := { s.machine with output := #[] } }
  return printed

/-- The globals in the order of their names. -/
def globals (s : Session) : Except Fault (List (Name × Value)) :=
  let bindings := (s.machine.store.scope s.machine.globals).bindings
  match Name.sorted? bindings.keys with
  | some names => .ok (names.filterMap fun name => (bindings.find? name).map (name, ·))
  | none => .error .notComparable

end Session

end LoxLang
