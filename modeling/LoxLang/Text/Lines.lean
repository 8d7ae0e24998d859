/-!
# Text files

A file is read as strict UTF-8, and each of its three line ends becomes one line feed.
-/

namespace LoxLang.Text

/-- A carriage return, with the line feed after it if there is one, becomes a line feed. The
characters in `done` come before, and are held last one first. -/
def unifyOnto (done : List Char) : List Char → List Char
  | '\r' :: '\n' :: rest => unifyOnto ('\n' :: done) rest
  | '\r' :: rest => unifyOnto ('\n' :: done) rest
  | c :: rest => unifyOnto (c :: done) rest
  | [] => done.reverse

/-- The text with each line ended by a line feed. -/
def unifyLineEnds (s : String) : String :=
  String.ofList (unifyOnto [] s.toList)

/-- The text of a file, or `none` if its bytes are not UTF-8. -/
def ofFile? (bytes : ByteArray) : Option String :=
  (String.fromUTF8? bytes).map unifyLineEnds

end LoxLang.Text
