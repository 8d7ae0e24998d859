import LoxLang.Tree

/-!
# The first line of a tree

The line of the first token under a tree, slots in order and lists from left to right. The walk
keeps the trees still to visit in a list of its own, so it is a loop, however deep the tree is.
-/

namespace LoxLang.Tree

mutual

/-- The number of trees in a tree. -/
def weight : Tree → Nat
  | scalar _ | token _ | object _ => 1
  | list items => 1 + weights items
  | literal v _ => 1 + weight v
  | unary op r => 1 + weight op + weight r
  | binary l op r => 1 + weight l + weight op + weight r
  | logical l op r => 1 + weight l + weight op + weight r
  | grouping e => 1 + weight e
  | ident n _ => 1 + weight n
  | assign n v _ => 1 + weight n + weight v
  | call c p as => 1 + weight c + weight p + weight as
  | getField o n => 1 + weight o + weight n
  | setField o n v => 1 + weight o + weight n + weight v
  | thisRef k _ => 1 + weight k
  | superRef k m _ => 1 + weight k + weight m
  | exprStmt e => 1 + weight e
  | printStmt e => 1 + weight e
  | varDecl n i => 1 + weight n + weight i
  | block ss => 1 + weight ss
  | ifElse c t e => 1 + weight c + weight t + weight e
  | whileLoop c b => 1 + weight c + weight b
  | funDecl n ps b => 1 + weight n + weight ps + weight b
  | returnStmt k v => 1 + weight k + weight v
  | classDecl n s ms => 1 + weight n + weight s + weight ms

/-- The number of trees in a list of trees. -/
def weights : List Tree → Nat
  | [] => 0
  | t :: ts => weight t + weights ts

end

theorem weights_append (ts us : List Tree) : weights (ts ++ us) = weights ts + weights us := by
  induction ts with
  | nil => simp [weights]
  | cons t ts ih => simp [weights, ih, Nat.add_assoc]

theorem weights_children_lt (t : Tree) : weights t.children < weight t := by
  cases t <;> simp [children, weight, weights] <;> omega

/-- The line of the first token under the pending trees, or zero if they hold none. -/
def firstLineOf : List Tree → Json
  | [] => .int 0
  | t :: pending =>
    match t.asToken? with
    | some found => found.line
    | none => firstLineOf (t.children ++ pending)
termination_by pending => weights pending
decreasing_by
  have := weights_children_lt t
  rw [weights_append, weights]
  omega

/-- The line of the first token under a tree, or zero if it holds none. -/
def firstLine (t : Tree) : Json :=
  firstLineOf [t]

end LoxLang.Tree
