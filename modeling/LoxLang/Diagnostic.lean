import LoxLang.Problem
import LoxLang.Token

/-!
# Diagnostics

A static diagnostic names a line, a place on it and a problem. A runtime error names what went wrong
and a line. A line is the datum that a token has for it, which is a number in every program that was
scanned. `Reporter` collects both: it keeps one flag for each kind, the diagnostics since the last
reset, and all that was ever written.
-/

namespace LoxLang

/-- Where on its line a problem was found. -/
inductive Place where
  | nowhere
  | atEnd
  | at (lexeme : String)
  /-- A place that the caller words. -/
  | verbatim (text : String)
deriving DecidableEq, Repr

/-- The place, as a message names it. -/
def Place.text : Place → String
  | nowhere => ""
  | atEnd => " at end"
  | .at lexeme => " at '" ++ lexeme ++ "'"
  | verbatim text => text

/-- The end of a program has no text to quote. -/
def Place.ofToken (t : Token) : Place :=
  if t.kind = .eof then atEnd else .at t.lexeme.spelling

/-- What stops a program. -/
inductive RuntimeCause where
  | operandNotNumber
  | operandsNotNumbers
  | operandsNotAddable
  | unknownUnary
  | unknownBinary
  | undefinedVariable (name : String)
  | undefinedProperty (name : String)
  | propertyOfNonInstance
  | fieldOfNonInstance
  | notCallable
  | argumentCount (expected got : Nat)
  | superclassNotClass
  | stackOverflow
  /-- An error that the caller words. -/
  | custom (text : String)
deriving DecidableEq, Repr

/-- The message of a runtime error. -/
def RuntimeCause.text : RuntimeCause → String
  | operandNotNumber => "Operand must be a number."
  | operandsNotNumbers => "Operands must be numbers."
  | operandsNotAddable => "Operands must be two numbers or two strings."
  | unknownUnary => "Unknown unary operator."
  | unknownBinary => "Unknown binary operator."
  | undefinedVariable name => "Undefined variable '" ++ name ++ "'."
  | undefinedProperty name => "Undefined property '" ++ name ++ "'."
  | propertyOfNonInstance => "Only instances have properties."
  | fieldOfNonInstance => "Only instances have fields."
  | notCallable => "Can only call functions and classes."
  | argumentCount expected got =>
    "Expected " ++ toString expected ++ " arguments but got " ++ toString got ++ "."
  | superclassNotClass => "Superclass must be a class."
  | stackOverflow => "Stack overflow."
  | custom text => text

/-- A runtime error: its cause and its line. -/
structure RuntimeError where
  cause : RuntimeCause
  line : Json
deriving Repr

/-- An error at a token, or at a given line if there is no token. -/
def RuntimeError.ofToken? (t : Option Token) (cause : RuntimeCause) (line : Json) : RuntimeError :=
  ⟨cause, (t.map Token.line).getD line⟩

/-- A problem of a program, or an error of its run. -/
inductive Diagnostic where
  | static (line : Json) (place : Place) (problem : Problem)
  | runtime (error : RuntimeError)
deriving Repr

namespace Diagnostic

/-- A problem at a token. -/
def ofToken (t : Token) (problem : Problem) : Diagnostic :=
  static t.line (.ofToken t) problem

/-- The diagnostic is about the program, not about its run. -/
def isStatic : Diagnostic → Bool
  | static .. => true
  | runtime _ => false

/-- The message of a diagnostic. A runtime error has its line on a line of its own. -/
def text : Diagnostic → String
  | static line place problem =>
    "[line " ++ line.spelling ++ "] Error" ++ place.text ++ ": " ++ problem.text
  | runtime error => error.cause.text ++ "\n[line " ++ error.line.spelling ++ "]"

end Diagnostic

/-- What has been reported, and of which sort since the last reset. -/
structure Reporter where
  hadError : Bool := false
  hadRuntimeError : Bool := false
  /-- The diagnostics since the last reset. -/
  log : Array Diagnostic := #[]
  /-- All diagnostics ever reported. -/
  written : Array Diagnostic := #[]
deriving Inhabited

namespace Reporter

/-- Report a diagnostic. -/
def report (r : Reporter) (d : Diagnostic) : Reporter where
  hadError := r.hadError || d.isStatic
  hadRuntimeError := r.hadRuntimeError || !d.isStatic
  log := r.log.push d
  written := r.written.push d

/-- Report diagnostics, one after the other. -/
def reportAll (r : Reporter) (ds : List Diagnostic) : Reporter :=
  ds.foldl report r

/-- What a reporter is after reports. -/
theorem reportAll_eq (r : Reporter) (ds : List Diagnostic) :
    r.reportAll ds = ⟨r.hadError || ds.any Diagnostic.isStatic,
      r.hadRuntimeError || ds.any (!·.isStatic), r.log ++ ds.toArray, r.written ++ ds.toArray⟩ := by
  induction ds generalizing r with
  | nil => simp [reportAll]
  | cons d ds ih =>
    rw [reportAll, List.foldl_cons, ← reportAll, ih]
    simp [report, Bool.or_assoc]

/-- Forget the flags and the diagnostics, but not what was written. -/
def reset (r : Reporter) : Reporter :=
  { r with hadError := false, hadRuntimeError := false, log := #[] }

/-- The texts of the messages since the last reset. -/
def messages (r : Reporter) : List String :=
  r.log.toList.map Diagnostic.text

/-- All that was written, each message with a line feed after it. -/
def stream (r : Reporter) : String :=
  String.join (r.written.toList.map fun d => d.text ++ "\n")

end Reporter

end LoxLang
