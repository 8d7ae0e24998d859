import LoxLang.Proofs.Grammar
import LoxLang.Proofs.Scanned
import LoxLang.Tree.Resolve

/-!
# Contexts

What a slot of a tree may hold depends on the slot alone: a statement, an expression, a sequence of
them, or something that no walk looks into. `Role` names the slots that are walked. A `Context` is a
role together with the scopes that are open there, and `Context.inside` says how both change from a
tree to the trees below it: a block or a function opens a scope, a class opens one or two, and a
statement adds the name that it declares to the scope for the statements after it.

`Everywhere` carries a property over all trees that are walked. `Formed` is the property that a tree
has the right form for its role. A program that is parsed without a problem has it everywhere.
-/

namespace LoxLang

open Resolver (Frame)

variable {P : Context → Tree → Prop} {c : Context} {t : Tree} {role : Role}

/-- The name that a statement declares. -/
def Tree.declared? : Tree → Option Tree
  | varDecl name _ | funDecl name _ _ | classDecl name _ _ => some name
  | _ => none

/-! ## Open scopes -/

namespace Resolver

/-- The open scopes after a name was bound in the innermost one. -/
def bindName (scopes : List Frame) (name : Tree) (ready : Bool) : List Frame :=
  match scopes, name.asName with
  | scope :: outer, .ok key => scope.insert key ready :: outer
  | scopes, _ => scopes

/-- The open scopes after a name was declared and is ready to be read. -/
def bindReady (scopes : List Frame) (name : Tree) : List Frame :=
  bindName (bindName scopes name false) name true

/-- The open scopes after a statement. -/
def afterStatement (scopes : List Frame) (t : Tree) : List Frame :=
  match t.declared? with
  | some name => bindReady scopes name
  | none => scopes

/-- The scope around the methods of a class. -/
def thisFrame : Frame := .single (.ofText "this") true

/-- The scope around that one in a class with a superclass. -/
def superFrame : Frame := .single (.ofText "super") true

/-- The open scopes around the methods of a class. -/
def aroundMethods (scopes : List Frame) (parent : Tree) : List Frame :=
  thisFrame :: (if parent.isNull then scopes else superFrame :: scopes)

end Resolver

open Resolver (bindName bindReady afterStatement aroundMethods)

/-! ## Roles -/

/-- What a slot holds. -/
inductive Role where
  | statement
  | expression
  | method
  /-- The statements of a program, a block or a function. -/
  | body
  | arguments
  /-- The methods of a class. -/
  | members
deriving DecidableEq, Repr

/-- What a tree is read as, and the scopes that are open around it. -/
structure Context where
  role : Role
  scopes : List Frame

/-- The role of a slot that may hold nothing. -/
def Role.optional (role : Role) (t : Tree) : Option Role :=
  if t.isNull then none else some role

/-- The role of what stands right below a tree, if a walk goes there. -/
def Role.inside : Role → Tree → Nat → Option Role
  | .body, .list _, _ => some .statement
  | .arguments, .list _, _ => some .expression
  | .members, .list _, _ => some .method
  | .method, .funDecl .., 2 => some .body
  | .statement, t, i =>
    match t, i with
    | .exprStmt _, 0 | .printStmt _, 0 | .ifElse .., 0 | .whileLoop .., 0 => some .expression
    | .varDecl _ value, 1 | .returnStmt _ value, 1 | .classDecl _ value _, 1 =>
      Role.expression.optional value
    | .block _, 0 | .funDecl .., 2 => some .body
    | .ifElse .., 1 | .whileLoop .., 1 => some .statement
    | .ifElse _ _ elseBranch, 2 => Role.statement.optional elseBranch
    | .classDecl .., 2 => some .members
    | _, _ => none
  | .expression, t, i =>
    match t, i with
    | .unary .., 1 | .binary .., 0 | .binary .., 2 | .logical .., 0 | .logical .., 2
    | .grouping _, 0 | .assign .., 1 | .call .., 0 | .getField .., 0 | .setField .., 0
    | .setField .., 2 => some .expression
    | .call .., 2 => some .arguments
    | _, _ => none
  | _, _, _ => none

/-- The scopes that are open right below a tree. -/
def scopesInside (scopes : List Frame) : Role → Tree → Nat → List Frame
  | .body, .list items, i => (items.take i).foldl afterStatement scopes
  | .method, .funDecl _ (.list params) _, _ => params.foldl bindReady (.empty :: scopes)
  | .statement, .varDecl name _, _ => bindName scopes name false
  | .statement, .block _, _ => .empty :: scopes
  | .statement, .funDecl name (.list params) _, _ =>
    params.foldl bindReady (.empty :: bindReady scopes name)
  | .statement, .classDecl name _ _, 1 => bindReady scopes name
  | .statement, .classDecl name parent _, _ => aroundMethods (bindReady scopes name) parent
  | _, _, _ => scopes

/-- The context of what stands right below a tree, if a walk goes there. -/
def Context.inside (c : Context) (t : Tree) (i : Nat) : Option Context :=
  (c.role.inside t i).map fun role => ⟨role, scopesInside c.scopes c.role t i⟩

/-- What a walk goes to right below a tree. -/
def Context.walked (c : Context) (t : Tree) : List (Context × Tree) :=
  t.children.zipIdx.filterMap fun (u, i) => (c.inside t i).map (·, u)

/-- The property holds of a tree and of all trees below it that are walked. -/
inductive Everywhere (P : Context → Tree → Prop) : Context → Tree → Prop where
  | intro {c : Context} {t : Tree} (here : P c t)
      (below : ∀ {i c' u}, c.inside t i = some c' → t.children[i]? = some u → Everywhere P c' u) :
      Everywhere P c t

theorem Everywhere.here (h : Everywhere P c t) : P c t := by
  cases h with
  | intro here _ => exact here

variable {c' : Context} {u : Tree}

theorem Everywhere.child (h : Everywhere P c t) (i : Nat) (hc : c.inside t i = some c')
    (hu : t.children[i]? = some u) : Everywhere P c' u := by
  cases h with
  | intro _ below => exact below hc hu

theorem Everywhere.imp {Q : Context → Tree → Prop} (hPQ : ∀ c t, P c t → Q c t)
    (h : Everywhere P c t) : Everywhere Q c t := by
  induction h with
  | intro here _ ih => exact .intro (hPQ _ _ here) ih

namespace Everywhere

variable {items : List Tree} {n : Option Nat}

variable {P : Context → Tree → Prop} {S : List Frame} {a b : Tree}

theorem of_walked (here : P c t) (h : ∀ p ∈ c.walked t, Everywhere P p.1 p.2) :
    Everywhere P c t := by
  refine .intro here fun {i c' u} hc hu => h (c', u) ?_
  rw [Context.walked, List.mem_filterMap]
  exact ⟨(u, i), List.mem_zipIdx_iff_getElem?.2 hu, congrArg (Option.map (·, u)) hc⟩

/-! The forms with no slot that is walked, with one and with two. -/

theorem leaf (here : P c t) (h : c.walked t = []) : Everywhere P c t :=
  of_walked here (h ▸ List.forall_mem_nil _)

theorem one (here : P c t) (h : c.walked t = [(c', u)]) (hu : Everywhere P c' u) :
    Everywhere P c t :=
  of_walked here (h ▸ List.forall_mem_singleton.2 hu)

theorem two {c'' : Context} {v : Tree} (here : P c t) (h : c.walked t = [(c', u), (c'', v)])
    (hu : Everywhere P c' u) (hv : Everywhere P c'' v) : Everywhere P c t :=
  of_walked here (h ▸ List.forall_mem_cons.2 ⟨hu, List.forall_mem_singleton.2 hv⟩)

/-! The other forms. -/

theorem of_optional (h : a.isNull = false → Everywhere P ⟨role, S⟩ a)
    (hc : (role.optional a).map (fun role => (⟨role, S⟩ : Context)) = some c') :
    Everywhere P c' a := by
  unfold Role.optional at hc
  split at hc
  · cases hc
  · next hn =>
    cases hc
    exact h (by simpa using hn)

theorem body (here : P ⟨.body, S⟩ (.list items)) (h : ∀ i t, items[i]? = some t →
      Everywhere P ⟨.statement, (items.take i).foldl afterStatement S⟩ t) :
    Everywhere P ⟨.body, S⟩ (.list items) :=
  .intro here fun {i _ _} hi hu => match hi with
    | rfl => h i _ hu

theorem list {item : Role} (here : P ⟨role, S⟩ (.list items))
    (hi : ∀ i, Context.inside ⟨role, S⟩ (.list items) i = some ⟨item, S⟩)
    (h : ∀ t ∈ items, Everywhere P ⟨item, S⟩ t) : Everywhere P ⟨role, S⟩ (.list items) :=
  .intro here fun {i _ _} hc hu =>
    Option.some.inj ((hi i).symm.trans hc) ▸ h _ (List.mem_of_getElem? hu)

theorem varDecl (here : P ⟨.statement, S⟩ (.varDecl a b))
    (hb : b.isNull = false → Everywhere P ⟨.expression, bindName S a false⟩ b) :
    Everywhere P ⟨.statement, S⟩ (.varDecl a b) :=
  .intro here fun {i _ _} hi hu => match i, hi, hu with
    | 1, hi, rfl => of_optional hb hi

theorem ifElse {c : Tree} (here : P ⟨.statement, S⟩ (.ifElse a b c))
    (ha : Everywhere P ⟨.expression, S⟩ a) (hb : Everywhere P ⟨.statement, S⟩ b)
    (hc : c.isNull = false → Everywhere P ⟨.statement, S⟩ c) :
    Everywhere P ⟨.statement, S⟩ (.ifElse a b c) :=
  .intro here fun {i _ _} hi hu => match i, hi, hu with
    | 0, rfl, rfl => ha
    | 1, rfl, rfl => hb
    | 2, hi, rfl => of_optional hc hi

theorem returnStmt (here : P ⟨.statement, S⟩ (.returnStmt a b))
    (hb : b.isNull = false → Everywhere P ⟨.expression, S⟩ b) :
    Everywhere P ⟨.statement, S⟩ (.returnStmt a b) :=
  .intro here fun {i _ _} hi hu => match i, hi, hu with
    | 1, hi, rfl => of_optional hb hi

theorem classDecl {c : Tree} (here : P ⟨.statement, S⟩ (.classDecl a b c))
    (hb : b.isNull = false → Everywhere P ⟨.expression, bindReady S a⟩ b)
    (hc : Everywhere P ⟨.members, aroundMethods (bindReady S a) b⟩ c) :
    Everywhere P ⟨.statement, S⟩ (.classDecl a b c) :=
  .intro here fun {i _ _} hi hu => match i, hi, hu with
    | 1, hi, rfl => of_optional hb hi
    | 2, rfl, rfl => hc

end Everywhere

/-! ## Forms -/

/-- The slot holds an identifier. -/
def Tree.IsName (t : Tree) : Prop :=
  ∃ token s, t = .token token ∧ token.lexeme = .str s ∧ Token.Kind.ofWord s = .identifier

/-- The slot holds a keyword with the given text. -/
def Tree.IsWord (word : String) (t : Tree) : Prop :=
  ∃ token, t = .token token ∧ token.lexeme = .str word

/-- The forms that a tree can have in a role. -/
inductive Formed : Role → Tree → Prop where
  | body {items : List Tree} : Formed .body (.list items)
  | arguments {items : List Tree} : Formed .arguments (.list items)
  | members {items : List Tree} : Formed .members (.list items)
  | method {name body : Tree} {params : List Tree} :
      name.IsName → (∀ p ∈ params, p.IsName) → Formed .method (.funDecl name (.list params) body)
  | exprStmt {e : Tree} : Formed .statement (.exprStmt e)
  | printStmt {e : Tree} : Formed .statement (.printStmt e)
  | varDecl {name initializer : Tree} :
      name.IsName → Formed .statement (.varDecl name initializer)
  | block {items : Tree} : Formed .statement (.block items)
  | ifElse {condition thenBranch elseBranch : Tree} :
      thenBranch.declared? = none → elseBranch.declared? = none →
      Formed .statement (.ifElse condition thenBranch elseBranch)
  | whileLoop {condition body : Tree} :
      body.declared? = none → Formed .statement (.whileLoop condition body)
  | funDecl {name body : Tree} {params : List Tree} :
      name.IsName → (∀ p ∈ params, p.IsName) →
      Formed .statement (.funDecl name (.list params) body)
  | returnStmt {keyword : Token} {value : Tree} :
      Formed .statement (.returnStmt (.token keyword) value)
  | rootClass {name methods : Tree} :
      name.IsName → Formed .statement (.classDecl name .null methods)
  | subclass {name parent methods : Tree} {depth : Option Nat} :
      name.IsName → parent.IsName →
      Formed .statement (.classDecl name (.ident parent depth) methods)
  | literal {value : Scalar} {serial : Option Nat} :
      Formed .expression (.literal (.scalar value) serial)
  | unary {operator : Token} {right : Tree} :
      operator.kind = .bang ∨ operator.kind = .minus →
      Formed .expression (.unary (.token operator) right)
  | binary {operator : Token} {left right : Tree} {level : Grammar.Level} :
      operator.kind ∈ level.kinds → level.tree = .binary →
      Formed .expression (.binary left (.token operator) right)
  | logical {operator : Token} {left right : Tree} :
      Formed .expression (.logical left (.token operator) right)
  | grouping {e : Tree} : Formed .expression (.grouping e)
  | ident {name : Tree} {depth : Option Nat} :
      name.IsName → Formed .expression (.ident name depth)
  | assign {name value : Tree} {depth : Option Nat} :
      name.IsName → Formed .expression (.assign name value depth)
  | call {callee arguments : Tree} {paren : Token} :
      Formed .expression (.call callee (.token paren) arguments)
  | getField {object name : Tree} :
      name.IsName → Formed .expression (.getField object name)
  | setField {object name value : Tree} :
      name.IsName → Formed .expression (.setField object name value)
  | thisRef {keyword : Tree} {depth : Option Nat} :
      keyword.IsWord "this" → Formed .expression (.thisRef keyword depth)
  | superRef {keyword method : Tree} {depth : Option Nat} :
      keyword.IsWord "super" → method.IsName → Formed .expression (.superRef keyword method depth)

theorem Formed.isNull_eq (h : Formed role t) : t.isNull = false := by
  cases h <;> rfl

theorem Formed.isName_declared {name : Tree} (h : Formed .statement t)
    (hd : t.declared? = some name) : name.IsName := by
  cases h <;> cases hd <;> assumption

/-- The tree has the right form for its role, and so has all that is walked below it. -/
def WellFormed (role : Role) (t : Tree) : Prop :=
  ∀ scopes, Everywhere (fun c u => Formed c.role u) ⟨role, scopes⟩ t

/-- A property of roles does not depend on the open scopes. -/
theorem Everywhere.reframe {P : Role → Tree → Prop} (h : Everywhere (fun c u => P c.role u) c t) :
    ∀ scopes, Everywhere (fun c u => P c.role u) ⟨c.role, scopes⟩ t := by
  induction h with
  | @intro c t here _ ih =>
    refine fun scopes => .intro here fun {i c' u} hc hu => ?_
    unfold Context.inside at hc ih
    cases hr : c.role.inside t i with
    | none => simp [hr] at hc
    | some role =>
      simp only [hr, Option.map_some, Option.some.injEq] at hc
      subst hc
      exact ih (by rw [hr]; rfl) hu _

theorem WellFormed.formed (h : WellFormed role t) : Formed role t :=
  (h []).here

/-- What is walked below a tree has the right form. -/
theorem WellFormed.child {role' : Role} (h : WellFormed role t) (i : Nat)
    (hr : role.inside t i = some role') (hu : t.children[i]? = some u) : WellFormed role' u := by
  have hc : Context.inside ⟨role, []⟩ t i = some ⟨role', scopesInside [] role t i⟩ := by
    unfold Context.inside
    rw [hr]
    rfl
  exact ((h []).child i hc hu).reframe

theorem WellFormed.items {role' : Role} {items : List Tree} (h : WellFormed role (.list items))
    (hr : ∀ i, role.inside (.list items) i = some role') : ∀ t ∈ items, WellFormed role' t := by
  intro t ht
  obtain ⟨i, hi⟩ := List.getElem?_of_mem ht
  exact h.child i (hr i) hi

/-! ## Genuine tokens -/

theorem Token.Genuine.isName {t : Token} (h : t.Genuine) (ht : t.kind = .identifier) :
    (Tree.token t).IsName := by
  obtain ⟨s, hs, hi, -, -⟩ := h.lexeme
  exact ⟨t, s, rfl, hs, hi ht⟩

theorem Token.Genuine.isThis {t : Token} (h : t.Genuine) (ht : t.kind = .kwThis) :
    (Tree.token t).IsWord "this" := by
  obtain ⟨s, hs, -, hi, -⟩ := h.lexeme
  exact ⟨t, rfl, hi ht ▸ hs⟩

theorem Token.Genuine.isSuper {t : Token} (h : t.Genuine) (ht : t.kind = .kwSuper) :
    (Tree.token t).IsWord "super" := by
  obtain ⟨s, hs, -, -, hi⟩ := h.lexeme
  exact ⟨t, rfl, hi ht ▸ hs⟩

end LoxLang
