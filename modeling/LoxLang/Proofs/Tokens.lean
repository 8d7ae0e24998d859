import Mathlib.Data.List.Basic
import LoxLang.Tree.FirstLine

/-!
# The tokens of a tree

`Tree.tokens` lists the tokens in the slots of a tree, in order. The first of them tells the first
line of the tree (`firstLine_eq`). `Tree.mapTokens` changes each of them.
-/

namespace LoxLang

variable {u t : Tree}

namespace Tree

/-! ## Induction over the trees right below -/

theorem weight_le_of_mem {ts : List Tree} (h : u ∈ ts) : u.weight ≤ weights ts := by
  induction h with
  | head ts => exact Nat.le_add_right _ _
  | tail t _ ih => exact Nat.le_trans ih (Nat.le_add_left _ _)

theorem weight_lt_of_child (h : u ∈ t.children) : u.weight < t.weight :=
  Nat.lt_of_le_of_lt (weight_le_of_mem h) (weights_children_lt t)

/-- What a tree has if the trees right below it have it, every tree has. -/
@[elab_as_elim]
theorem children_ind {motive : Tree → Prop} (t : Tree)
    (step : ∀ t, (∀ u ∈ t.children, motive u) → motive t) : motive t :=
  step t fun u _ => children_ind u step
termination_by t.weight
decreasing_by exact weight_lt_of_child ‹_›

/-! ## Tokens -/

mutual

/-- The tokens in the slots of a tree, in order. -/
def tokens : Tree → List Token
  | scalar _ | object _ => []
  | token t => [t]
  | list items => tokensIn items
  | literal v _ => tokens v
  | unary op r => tokens op ++ tokens r
  | binary l op r => tokens l ++ tokens op ++ tokens r
  | logical l op r => tokens l ++ tokens op ++ tokens r
  | grouping e => tokens e
  | ident n _ => tokens n
  | assign n v _ => tokens n ++ tokens v
  | call c p as => tokens c ++ tokens p ++ tokens as
  | getField o n => tokens o ++ tokens n
  | setField o n v => tokens o ++ tokens n ++ tokens v
  | thisRef k _ => tokens k
  | superRef k m _ => tokens k ++ tokens m
  | exprStmt e => tokens e
  | printStmt e => tokens e
  | varDecl n i => tokens n ++ tokens i
  | block ss => tokens ss
  | ifElse c t e => tokens c ++ tokens t ++ tokens e
  | whileLoop c b => tokens c ++ tokens b
  | funDecl n ps b => tokens n ++ tokens ps ++ tokens b
  | returnStmt k v => tokens k ++ tokens v
  | classDecl n s ms => tokens n ++ tokens s ++ tokens ms

/-- The same for the trees of a list. -/
def tokensIn : List Tree → List Token
  | [] => []
  | t :: ts => tokens t ++ tokensIn ts

end

mutual

/-- The tree with each token changed. -/
def mapTokens (f : Token → Token) : Tree → Tree
  | scalar s => scalar s
  | object fields => object fields
  | token t => token (f t)
  | list items => list (mapTokensIn f items)
  | literal v serial => literal (mapTokens f v) serial
  | unary op r => unary (mapTokens f op) (mapTokens f r)
  | binary l op r => binary (mapTokens f l) (mapTokens f op) (mapTokens f r)
  | logical l op r => logical (mapTokens f l) (mapTokens f op) (mapTokens f r)
  | grouping e => grouping (mapTokens f e)
  | ident n d => ident (mapTokens f n) d
  | assign n v d => assign (mapTokens f n) (mapTokens f v) d
  | call c p as => call (mapTokens f c) (mapTokens f p) (mapTokens f as)
  | getField o n => getField (mapTokens f o) (mapTokens f n)
  | setField o n v => setField (mapTokens f o) (mapTokens f n) (mapTokens f v)
  | thisRef k d => thisRef (mapTokens f k) d
  | superRef k m d => superRef (mapTokens f k) (mapTokens f m) d
  | exprStmt e => exprStmt (mapTokens f e)
  | printStmt e => printStmt (mapTokens f e)
  | varDecl n i => varDecl (mapTokens f n) (mapTokens f i)
  | block ss => block (mapTokens f ss)
  | ifElse c t e => ifElse (mapTokens f c) (mapTokens f t) (mapTokens f e)
  | whileLoop c b => whileLoop (mapTokens f c) (mapTokens f b)
  | funDecl n ps b => funDecl (mapTokens f n) (mapTokens f ps) (mapTokens f b)
  | returnStmt k v => returnStmt (mapTokens f k) (mapTokens f v)
  | classDecl n s ms => classDecl (mapTokens f n) (mapTokens f s) (mapTokens f ms)

/-- The same for the trees of a list. -/
def mapTokensIn (f : Token → Token) : List Tree → List Tree
  | [] => []
  | t :: ts => mapTokens f t :: mapTokensIn f ts

end

theorem tokensIn_eq (ts : List Tree) : tokensIn ts = ts.flatMap tokens := by
  induction ts with
  | nil => rfl
  | cons t ts ih => rw [tokensIn, ih, List.flatMap_cons]

theorem mapTokensIn_eq (f : Token → Token) (ts : List Tree) :
    mapTokensIn f ts = ts.map (mapTokens f) := by
  induction ts with
  | nil => rfl
  | cons t ts ih => rw [mapTokensIn, ih, List.map_cons]

theorem isNull_mapTokens (f : Token → Token) (t : Tree) : (t.mapTokens f).isNull = t.isNull := by
  cases t <;> rfl

theorem eq_null_of_isNull (h : t.isNull = true) : t = null := by
  unfold isNull at h
  split at h
  · rfl
  · cases h

/-- A tree that is no token has the tokens of the trees right below it. -/
theorem tokens_eq_children (h : t.asToken? = none) : t.tokens = t.children.flatMap tokens := by
  cases t <;> simp [tokens, children, tokensIn_eq] at h ⊢
  cases h

theorem mem_tokens_of_child {i : Nat} (h : t.children[i]? = some u) {a : Token}
    (ha : a ∈ u.tokens) :
    a ∈ t.tokens := by
  have hnone : t.asToken? = none := by
    cases t <;> first | rfl | cases h
  rw [tokens_eq_children hnone]
  exact List.mem_flatMap.2 ⟨u, List.mem_of_getElem? h, ha⟩

/-- The line of the first token of the pending trees. -/
theorem firstLineOf_eq (ts : List Tree) :
    firstLineOf ts = ((ts.flatMap tokens).head?.map Token.line).getD (.int 0) := by
  fun_induction firstLineOf ts with
  | case1 => rfl
  | case2 t pending a ha =>
    have ht : t = .token a := by
      cases t <;> cases ha
      rfl
    subst ht
    rfl
  | case3 t pending ha ih =>
    rw [ih, List.flatMap_cons, tokens_eq_children ha, List.flatMap_append]

theorem firstLine_eq (t : Tree) :
    t.firstLine = (t.tokens.head?.map Token.line).getD (.int 0) := by
  rw [firstLine, firstLineOf_eq]
  simp

theorem tokens_mapTokens (f : Token → Token) (t : Tree) :
    (t.mapTokens f).tokens = t.tokens.map f := by
  induction t using children_ind with
  | step t ih =>
    cases t with
    | list items =>
      simp only [mapTokens, tokens, mapTokensIn_eq, tokensIn_eq, List.flatMap_map, List.map_flatMap]
      exact List.flatMap_congr ih
    | _ => simp_all [mapTokens, tokens, children]

theorem mapTokens_id (t : Tree) : t.mapTokens id = t := by
  induction t using children_ind with
  | step t ih =>
    cases t with
    | list items =>
      rw [mapTokens, mapTokensIn_eq]
      exact congrArg list ((List.map_congr_left ih).trans items.map_id)
    | _ => simp_all [mapTokens, children]

mutual

/-- A datum holds no token. -/
theorem mapTokens_ofJson (f : Token → Token) :
    ∀ json : Json, (ofJson json).mapTokens f = ofJson json
  | .scalar _ | .object _ => rfl
  | .array items => congrArg list (mapTokensIn_ofJsons f items)

theorem mapTokensIn_ofJsons (f : Token → Token) :
    ∀ items : List Json, mapTokensIn f (ofJsons items) = ofJsons items
  | [] => rfl
  | json :: items => by rw [ofJsons, mapTokensIn, mapTokens_ofJson, mapTokensIn_ofJsons]

end

mutual

/-- A datum holds no token. -/
theorem tokens_ofJson : ∀ json : Json, (ofJson json).tokens = []
  | .scalar _ | .object _ => rfl
  | .array items => tokensIn_ofJsons items

theorem tokensIn_ofJsons : ∀ items : List Json, tokensIn (ofJsons items) = []
  | [] => rfl
  | json :: items => by rw [ofJsons, tokensIn, tokens_ofJson, tokensIn_ofJsons, List.append_nil]

end

end Tree

end LoxLang
