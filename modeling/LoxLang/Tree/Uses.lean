import LoxLang.Tree

/-!
# Uses of names

The uses of names in a tree, in the order in which they stand: a use comes before the uses inside
it, and slots are visited in order.
-/

namespace LoxLang.Tree

/-- A use of a name: its form, the token that names it, and the depth found for it. -/
structure Use where
  form : Form
  name : Tree
  depth : Option Nat

mutual

/-- The uses of names in a tree, in order. -/
def uses : Tree → List Use
  | scalar _ | token _ | object _ => []
  | list items => usesIn items
  | literal v _ => uses v
  | unary op r => uses op ++ uses r
  | binary l op r => uses l ++ uses op ++ uses r
  | logical l op r => uses l ++ uses op ++ uses r
  | grouping e => uses e
  | ident n d => ⟨.ident, n, d⟩ :: uses n
  | assign n v d => ⟨.assign, n, d⟩ :: (uses n ++ uses v)
  | call c p as => uses c ++ uses p ++ uses as
  | getField o n => uses o ++ uses n
  | setField o n v => uses o ++ uses n ++ uses v
  | thisRef k d => ⟨.thisRef, k, d⟩ :: uses k
  | superRef k m d => ⟨.superRef, k, d⟩ :: (uses k ++ uses m)
  | exprStmt e => uses e
  | printStmt e => uses e
  | varDecl n i => uses n ++ uses i
  | block ss => uses ss
  | ifElse c t e => uses c ++ uses t ++ uses e
  | whileLoop c b => uses c ++ uses b
  | funDecl n ps b => uses n ++ uses ps ++ uses b
  | returnStmt k v => uses k ++ uses v
  | classDecl n s ms => uses n ++ uses s ++ uses ms

/-- The uses of names in the trees of a list. -/
def usesIn : List Tree → List Use
  | [] => []
  | t :: ts => uses t ++ usesIn ts

end

end LoxLang.Tree
