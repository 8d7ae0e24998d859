import LoxLang.Command.Folder
import LoxLang.Command.Options
import LoxLang.Json.Reader
import LoxLang.Json.Writer
import LoxLang.Session
import LoxLang.Text.Lines

/-!
# Calls

A call runs a script, a document or a prompt, or shows the tree of a script or writes it down. What
a call does is a function of the options, what is found under the paths that it looks at, the input
and the clock. Its answer (`Reply`) holds what is printed, the files that are written, and how the
call ends.
-/

namespace LoxLang.Command

/-- What a call with given options does. -/
inductive Request where
  | tooManyScripts
  | emit (path : Path)
  | display (path : Path)
  | load (path : Path) (detail : Nat)
  | script (path : Path) (detail : Nat)
  | prompt (detail : Nat)
deriving DecidableEq, Repr

/-- The request that options stand for. An option with an empty file name counts for nothing. -/
def Options.request (o : Options) : Request :=
  match o.scripts with
  | _ :: _ :: _ => .tooManyScripts
  | scripts =>
    match o.file.filter fun file => file.2 ≠ "" with
    | some (.emit, name) => .emit (.ofString name)
    | some (.display, name) => .display (.ofString name)
    | some (.load, name) => .load (.ofString name) o.detail
    | none =>
      match scripts with
      | name :: _ => .script (.ofString name) o.detail
      | [] => .prompt o.detail

/-- The file that traces go to. -/
def tracePath : Path := .ofString "debug.txt"

/-- The file that the tree of a script is written to. -/
def treePath (script : Path) : Path :=
  script.withEnding ".ast.json"

/-- The paths that a request looks at. -/
def Request.paths : Request → List Path
  | tooManyScripts => []
  | emit path => [path, treePath path]
  | display path => [path]
  | load path _ | script path _ => [path, tracePath]
  | prompt _ => [tracePath]

/-- What breaks a call off. -/
inductive Crash where
  | isFolder
  | nameTooLong
  | notText
  | document (error : Json.ReadError)
  | abort (abort : Abort)

/-- How a call ends. -/
inductive Status where
  | success
  | crashed (cause : Crash)
  /-- The arguments cannot be read. -/
  | refused
  | badUsage
  /-- The program has a static problem. -/
  | badProgram
  | noFile
  /-- The program has stopped with an error. -/
  | failed

/-- The exit status of a call. -/
def Status.code : Status → Nat
  | success => 0
  | crashed _ => 1
  | refused => 2
  | badUsage => 64
  | badProgram => 65
  | noFile => 66
  | failed => 70

/-- The status after a program. A static problem counts before an error. -/
def Status.ofReporter (r : Reporter) : Status :=
  if r.hadError then badProgram else if r.hadRuntimeError then failed else success

/-- The answer of a call. -/
structure Reply where
  out : String := ""
  err : String := ""
  status : Status := .success
  written : List (Path × String) := []
  /-- How often the clock was read. -/
  readings : Nat := 0

/-! ## Texts -/

/-- What is written when the arguments make no sense. -/
def usageText : String :=
  "usage: lox [-h] [-v]\n" ++
  "           [--emit-ast SCRIPT | --ast AST_JSON_FILE | --print-ast SCRIPT]\n" ++
  "           [script ...]\n"

/-- What is written when help is asked for. -/
def helpText : String :=
  usageText ++
  "\nLox language interpreter\n\n" ++
  "positional arguments:\n" ++
  "  script                Lox script to execute; omit for a prompt\n\n" ++
  "options:\n" ++
  "  -h, --help            show this help message and exit\n" ++
  "  -v                    increase debug verbosity (can be repeated)\n" ++
  "  --emit-ast SCRIPT     emit AST JSON for the given script\n" ++
  "  --ast AST_JSON_FILE   execute AST from a JSON file\n" ++
  "  --print-ast SCRIPT    print the parsed statements of the given script\n"

/-- What the prompt shows before it reads a line. -/
def promptText : String := "> "

/-! ## Carrying out a request -/

/-- The text of the file under a path, or the reply if there is none. -/
def sourceText (path : Path) : Source → Except Reply String
  | .missing => .error { err := "Error: file " ++ path.text ++ " not found\n", status := .noFile }
  | .folder => .error { status := .crashed .isFolder }
  | .tooLong => .error { status := .crashed .nameTooLong }
  | .file bytes =>
    match Text.ofFile? bytes with
    | some text => .ok text
    | none => .error { status := .crashed .notText }

/-- The reply of a session that ends. -/
def sessionReply (s : Session) (out : String) (status : Status) : Reply where
  out := out
  err := s.reporter.stream
  status := status
  written := match s.machine.trace.text? with
    | some text => [(tracePath, text)]
    | none => []
  readings := s.machine.clock.taken

/-- How a call ends that gives a step up. -/
def Crash.ofAbort : Abort → Crash
  | .blockedTrace => isFolder
  | reason => abort reason

/-- Take a step on a new session. -/
def runStep (step : Step Unit) (s : Session) : Reply :=
  match step s with
  | .ok _ s => sessionReply s s.machine.printed (.ofReporter s.reporter)
  | .error reason s => sessionReply s s.machine.printed (.crashed (.ofAbort reason))

/-- Read a document and run the program in it. -/
def runDocument (text : String) (s : Session) : Reply :=
  match Json.read text with
  | .ok document => runStep (Session.runDocument document) s
  | .error error => { status := .crashed (.document error) }

/-- Run one line of a prompt. The problems of a line are forgotten after it. -/
def promptLine (line : String) : Step String := do
  Session.run line
  Session.reset
  Session.takeOutput

/-- Run the lines of a prompt, after those that have shown the texts in `shown`, the last one first.
What is shown counts also if a line is given up. -/
def promptFrom (shown : List String) (s : Session) :
    List String → List String × Option Abort × Session
  | [] => (promptText :: shown, none, s)
  | line :: lines =>
    match promptLine line s with
    | .ok text s => promptFrom (text :: promptText :: shown) s lines
    | .error reason s => (s.machine.printed :: promptText :: shown, some reason, s)

/-- The lines of an input. The last one need not be ended. -/
def linesOf (input : String) : List String :=
  let lines := input.splitOn "\n"
  if lines.getLast? = some "" then lines.dropLast else lines

/-- Run the lines of an input at a prompt. -/
def runPrompt (input : String) (s : Session) : Reply :=
  let (shown, reason, s) := promptFrom [] s (linesOf input)
  let status := match reason with
    | none => .success
    | some reason => .crashed (.ofAbort reason)
  sessionReply s (String.join shown.reverse) status

/-- The trees of a script, and a reporter that knows its problems. -/
def parseScript (source : String) : List Tree × Reporter :=
  let found := scan source
  let parsed := (parse? found.finish).getD {}
  (parsed.statements, Reporter.reportAll {} (found.problems.toList ++ parsed.problems))

/-- Write trees to a file. The file is made before the trees are walked. -/
def writeTrees (target : Path) (statements : List Tree) : Source → Reply
  | .folder => { status := .crashed .isFolder }
  | .tooLong => { status := .crashed .nameTooLong }
  | _ =>
    match (Tree.list statements).document with
    | .ok document => { out := target.text ++ "\n", written := [(target, document.indented)] }
    | .error fault => { status := .crashed (.abort (.fault fault)), written := [(target, "")] }

/-- Write the tree of a script beside it. -/
def emitTree (target : Path) (found : Source) (source : String) : Reply :=
  let (statements, reporter) := parseScript source
  if reporter.hadError then { err := reporter.stream, status := .badProgram }
  else writeTrees target statements found

/-- Print trees, each on a line, after those in `out`. -/
def showFrom (out : String) : List Tree → String × Option Fault
  | [] => (out, none)
  | t :: ts =>
    match t.printed with
    | .ok shown => showFrom (out ++ shown.spelling ++ "\n") ts
    | .error fault => (out, some fault)

/-- Print the trees of a script. -/
def showTrees (source : String) : Reply :=
  let (statements, reporter) := parseScript source
  match showFrom "" statements with
  | (out, none) => { out, err := reporter.stream, status := .ofReporter reporter }
  | (out, some fault) => { out, err := reporter.stream, status := .crashed (.abort (.fault fault)) }

/-- Carry out a request, given what is found under each path. -/
def Request.perform (request : Request) (find : Path → Source) (input : String) (clock : Clock) :
    Reply :=
  let withText (path : Path) (use : String → Reply) : Reply :=
    match sourceText path (find path) with
    | .ok text => use text
    | .error reply => reply
  let session (detail : Nat) : Session :=
    let blocked := match find tracePath with
      | .folder => true
      | _ => false
    .startTracing detail clock blocked
  match request with
  | tooManyScripts => { out := "Usage: lox [script]\n", status := .badUsage }
  | emit path => withText path (emitTree (treePath path) (find (treePath path)))
  | display path => withText path showTrees
  | load path detail => withText path fun text => runDocument text (session detail)
  | script path detail => withText path fun text => runStep (Session.run text) (session detail)
  | prompt detail => runPrompt input (session detail)

/-- The answer to a call that is not carried out. -/
def Refusal.reply : Refusal → Reply
  | usage => { err := usageText, status := .refused }
  | help => { out := helpText }

end LoxLang.Command

namespace LoxLang.Folder

/-- Make a call in a folder. -/
def call (f : Folder) (arguments : List String) (input : String) (clock : Clock) :
    Command.Reply × Folder :=
  let reply := match Command.Options.ofArguments arguments with
    | .error refusal => refusal.reply
    | .ok options => options.request.perform f.find input clock
  (reply, reply.written.foldl (fun f file => f.write file.1 file.2.toUTF8) f)

end LoxLang.Folder
