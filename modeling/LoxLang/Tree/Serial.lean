import LoxLang.Tree

/-!
# Numbering literals

A literal of a document can hold something that is no value of the language, and two such literals
hold different things even if they look the same. Before a document runs, each of these literals
gets a serial number. The numbers are taken in order from a counter, which is never set back, so no
two literals of a running program have the same one. Nothing else in a tree changes, and a tree of
the parser has no such literal in it.
-/

namespace LoxLang.Tree

/-- What a literal holds is no value of the language. -/
def isForeign : Tree → Bool
  | scalar (.int _) => true
  | scalar _ => false
  | _ => true

/-- The next serial number. -/
def nextSerial : StateM Nat Nat := do
  let n ← get
  set (n + 1)
  return n

mutual

/-- Number the literals of a tree. -/
def numbered : Tree → StateM Nat Tree
  | literal v serial =>
    if v.isForeign then do
      let n ← nextSerial
      return literal v (some n)
    else return literal v serial
  | list items => return list (← numberedAll items)
  | unary op r => return unary op (← numbered r)
  | binary l op r => return binary (← numbered l) op (← numbered r)
  | logical l op r => return logical (← numbered l) op (← numbered r)
  | grouping e => return grouping (← numbered e)
  | assign n v d => return assign n (← numbered v) d
  | call c p as => return call (← numbered c) p (← numbered as)
  | getField o n => return getField (← numbered o) n
  | setField o n v => return setField (← numbered o) n (← numbered v)
  | exprStmt e => return exprStmt (← numbered e)
  | printStmt e => return printStmt (← numbered e)
  | varDecl n i => return varDecl n (← numbered i)
  | block ss => return block (← numbered ss)
  | ifElse c t e => return ifElse (← numbered c) (← numbered t) (← numbered e)
  | whileLoop c b => return whileLoop (← numbered c) (← numbered b)
  | funDecl n ps b => return funDecl n ps (← numbered b)
  | returnStmt k v => return returnStmt k (← numbered v)
  | classDecl n s ms => return classDecl n (← numbered s) (← numbered ms)
  | t => return t

/-- The trees of a list, numbered one after the other. -/
def numberedAll : List Tree → StateM Nat (List Tree)
  | [] => return []
  | t :: ts => return (← numbered t) :: (← numberedAll ts)

end

end LoxLang.Tree
