/-!
# Paths

A path is a list of parts after an optional root. Empty parts and parts that stand for the folder
they are in are dropped, and parts that stand for the folder above are kept.
-/

namespace LoxLang

/-- A path: its root and the names on the way. -/
structure Path where
  /-- Empty for a path that is relative to the current folder. -/
  root : String := ""
  parts : List String := []
deriving DecidableEq, Repr

namespace Path

/-- The root of a path. Exactly two slashes are a root of their own. -/
def rootOf : List Char → String
  | '/' :: '/' :: '/' :: _ => "/"
  | '/' :: '/' :: _ => "//"
  | '/' :: _ => "/"
  | _ => ""

/-- Cut a path at its slashes. Empty names and single dots count for nothing. -/
def ofString (s : String) : Path where
  root := rootOf s.toList
  parts := (s.splitOn "/").filter fun part => part ≠ "" && part ≠ "."

/-- The text of a path. A path without parts is the current folder. -/
def text (p : Path) : String :=
  match p.root, p.parts with
  | "", [] => "."
  | root, parts => root ++ "/".intercalate parts

/-- The most bytes that a path can have. -/
def maxLength : Nat := 4095

/-- The most bytes that a part of a path can have. -/
def maxPartLength : Nat := 255

/-- The path with an ending added to its last part. -/
def withEnding (p : Path) (ending : String) : Path :=
  match p.parts.reverse with
  | [] => p
  | last :: before => { p with parts := before.reverse ++ [last ++ ending] }

end Path

end LoxLang
