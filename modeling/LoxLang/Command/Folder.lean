import LoxLang.Command.Path

/-!
# Folders

A folder is a list of files, each under the names of the folders that lead to it. A folder inside it
exists exactly if it leads to a file.
-/

namespace LoxLang

/-- What is found under a path. -/
inductive Source where
  | missing
  | folder
  | file (bytes : ByteArray)
  /-- The path or a part of it is longer than paths can be. -/
  | tooLong

/-- The files below a folder, each under the names on the way to it. -/
structure Folder where
  files : List (List String × ByteArray) := []

namespace Folder

/-- A place that a path leads to. -/
inductive Spot where
  /-- The names from the current folder on, the last one first. -/
  | below (names : List String)
  /-- A folder that holds the current one, of which nothing else is known. -/
  | above

/-- The file at the end of the names. -/
def bytes? (f : Folder) (names : List String) : Option ByteArray :=
  (f.files.find? fun file => file.1 == names).map Prod.snd

/-- The names lead to the folder itself or to one that holds a file. -/
def isFolder (f : Folder) (names : List String) : Bool :=
  names.isEmpty || f.files.any fun file => names.isPrefixOf file.1 && names != file.1

/-- Why a path leads nowhere. -/
inductive DeadEnd where
  | missing
  | tooLong
deriving DecidableEq, Repr

/-- What is found at a dead end. -/
def DeadEnd.source : DeadEnd → Source
  | missing => .missing
  | tooLong => .tooLong

/-- One part of a path further. Only a folder leads on. -/
def advance (f : Folder) (spot : Spot) (part : String) : Except DeadEnd Spot :=
  match spot with
  | .above => if part = ".." then .ok .above else .error .missing
  | .below names =>
    if !f.isFolder names.reverse then .error .missing
    else if part.utf8ByteSize > Path.maxPartLength then .error .tooLong
    else
      match part, names with
      | "..", [] => .ok .above
      | "..", _ :: outer => .ok (.below outer)
      | part, names => .ok (.below (part :: names))

/-- Where a path leads. Nothing is known of other roots. -/
def spot (f : Folder) (p : Path) : Except DeadEnd Spot :=
  if p.text.utf8ByteSize > Path.maxLength then .error .tooLong
  else if p.root ≠ "" then if p.parts.isEmpty then .ok .above else .error .missing
  else p.parts.foldlM f.advance (.below [])

/-- Look a path up. -/
def find (f : Folder) (p : Path) : Source :=
  match f.spot p with
  | .error deadEnd => deadEnd.source
  | .ok .above => .folder
  | .ok (.below names) =>
    match f.bytes? names.reverse with
    | some bytes => .file bytes
    | none => if f.isFolder names.reverse then .folder else .missing

/-- Put a file under a path, in place of the one that is there. -/
def write (f : Folder) (p : Path) (bytes : ByteArray) : Folder :=
  match f.spot p with
  | .ok (.below names) =>
    ⟨f.files.filter (fun file => file.1 != names.reverse) ++ [(names.reverse, bytes)]⟩
  | _ => f

end Folder

end LoxLang
