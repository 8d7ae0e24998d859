/-!
# Options

The arguments of a call. An argument is looked at by itself first (`Argument.ofString`), and then
the arguments are read from left to right. Names of long options may be cut short, `--` ends the
options, and scripts must stand together.
-/

namespace LoxLang.Command

/-- The options that name a file. Only one of them may be given. -/
inductive Mode where
  /-- Write the tree of a script as a document. -/
  | emit
  /-- Run a document. -/
  | load
  /-- Print the tree of a script. -/
  | display
deriving DecidableEq, Repr

/-- An argument by itself. -/
inductive Argument where
  | plain (text : String)
  /-- The end of the options. -/
  | divider
  | verbose (times : Nat)
  | help
  | file (mode : Mode) (value : Option String)
  /-- Something like an option, which is refused in the end. -/
  | unknown
  /-- An option that is refused where it stands. -/
  | broken
deriving DecidableEq, Repr

namespace Argument

/-- The long options. -/
def long : List (String × (Option String → Argument)) :=
  [("--help", fun value => if value.isSome then broken else help), ("--emit-ast", file .emit),
    ("--ast", file .load), ("--print-ast", file .display)]

/-- A text that looks like a negative number. -/
def isNumber (digits : List Char) : Bool :=
  let rest := digits.dropWhile Char.isDigit
  match rest with
  | [] => !digits.isEmpty
  | '.' :: decimals => !decimals.isEmpty && decimals.all Char.isDigit
  | _ => false

/-- Something that starts with a dash and names no option. With a blank in it, it is none. -/
def other (s : String) : Argument :=
  if s.toList.contains ' ' then plain s else unknown

/-- Options of one letter, after the dash. -/
def ofLetters (letters : List Char) : Argument :=
  if letters.all fun c => c = 'v' || c = 'h' then
    if letters.contains 'h' then help else verbose letters.length
  else broken

/-- An argument with two dashes. The start of a name is enough if only one option starts like that.
-/
def ofLong (s : String) : Argument :=
  let name := s.toList.takeWhile (· ≠ '=')
  let value := match s.toList.dropWhile (· ≠ '=') with
    | [] => none
    | _ :: rest => some (String.ofList rest)
  match long.filter fun entry => name.isPrefixOf entry.1.toList with
  | [] => other s
  | [entry] => entry.2 value
  | _ => broken

/-- What an argument is by itself. -/
def ofString (s : String) : Argument :=
  match s.toList with
  | '-' :: '-' :: _ => ofLong s
  | '-' :: c :: rest =>
    if c = 'v' || c = 'h' then ofLetters (c :: rest)
    else if isNumber (c :: rest) then plain s
    else other s
  | _ => plain s

/-- All arguments by themselves. After the end of the options each one is plain. -/
def ofStrings : List String → List Argument
  | [] => []
  | s :: rest => if s = "--" then divider :: rest.map plain else ofString s :: ofStrings rest

end Argument

/-- Why a call is not carried out. -/
inductive Refusal where
  | usage
  | help
deriving DecidableEq, Repr

/-- How much to trace, the file to work on, and the scripts to run. -/
structure Options where
  detail : Nat := 0
  file : Option (Mode × String) := none
  scripts : List String := []
deriving DecidableEq, Repr

namespace Options

/-- How far the scripts have been read. -/
inductive Phase where
  | before
  | inside
  | after
deriving DecidableEq, Repr

/-- The options that were read so far. -/
structure Reading where
  options : Options := {}
  phase : Phase := .before
  /-- Whether there is an argument that has no place. -/
  leftover : Bool := false

namespace Reading

/-- Take scripts. They have no place after an option that has ended the scripts. -/
def script (r : Reading) (texts : List String) : Reading :=
  if r.phase = .after then { r with leftover := true }
  else { r with
    phase := .inside
    options := { r.options with scripts := r.options.scripts ++ texts } }

/-- An option ends the scripts before it. -/
def closeScripts (r : Reading) : Reading :=
  if r.phase = .inside then { r with phase := .after } else r

/-- Trace more, by so many levels. -/
def verbose (r : Reading) (times : Nat) : Reading :=
  { r with options := { r.options with detail := r.options.detail + times } }

/-- Take a file. All files of a call are for the same mode, and the last one counts. -/
def file (r : Reading) (mode : Mode) (value : String) : Except Refusal Reading :=
  match r.options.file with
  | some (other, _) =>
    if other = mode then .ok { r with options := { r.options with file := some (mode, value) } }
    else .error .usage
  | none => .ok { r with options := { r.options with file := some (mode, value) } }

end Reading

/-- Read arguments, after those that have been read. -/
def readFrom (r : Reading) : List Argument → Except Refusal Reading
  | [] => .ok r
  | .plain text :: rest => readFrom (r.script [text]) rest
  | .divider :: rest => readFrom (r.script []) rest
  | .verbose times :: rest => readFrom (r.closeScripts.verbose times) rest
  | .help :: _ => .error .help
  | .broken :: _ => .error .usage
  | .unknown :: rest => readFrom { r.closeScripts with leftover := true } rest
  | .file mode (some value) :: rest =>
    match r.closeScripts.file mode value with
    | .ok r => readFrom r rest
    | .error refusal => .error refusal
  | .file mode none :: .plain value :: rest =>
    match r.closeScripts.file mode value with
    | .ok r => readFrom r rest
    | .error refusal => .error refusal
  | .file _ none :: _ => .error .usage

/-- The options of a call. -/
def ofArguments (arguments : List String) : Except Refusal Options :=
  match readFrom {} (Argument.ofStrings arguments) with
  | .ok r => if r.leftover then .error .usage else .ok r.options
  | .error refusal => .error refusal

end Options

end LoxLang.Command
