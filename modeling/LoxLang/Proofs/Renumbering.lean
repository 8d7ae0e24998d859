import LoxLang.Proofs.Likeness
import LoxLang.Proofs.Writing
import Mathlib.Order.Monotone.Basic

/-!
# One scope more

A tree can be executed with one scope more around it than it was resolved for, if the depths of its
uses are changed. `Tree.renumber` changes them by a function on the numbers of the open scopes,
which is lifted (`up`) under each scope that the tree opens itself. Not every tree can stand there:
a declaration needs the innermost scope to be the same, and the scope of `this` must stay right
inside the one of `super` (`Tree.Sits`).

This is what the resolver does (`transfers_of_everywhere`). A tree that was resolved in some scopes
is the tree that would have been resolved in other ones, renumbered.

The last part says where the trees of a resolved program stand: each one is at the place where it
was before it was resolved (`at?_writtenAs`).
-/

namespace LoxLang

variable {f : Nat → Nat} {ts : List Tree} {T : List Frame}

theorem strictMono_up (hf : StrictMono f) : StrictMono (up f) := by
  intro a b hab
  cases b with
  | zero => cases hab
  | succ b =>
    cases a with
    | zero => exact Nat.succ_pos _
    | succ a => exact Nat.succ_lt_succ (hf (Nat.lt_of_succ_lt_succ hab))

/-- The numbers of the scopes around the methods of a class. -/
def upMembers (f : Nat → Nat) (parent : Tree) : Nat → Nat :=
  up (if parent.isNull then f else up f)

theorem strictMono_upMembers (hf : StrictMono f) (parent : Tree) :
    StrictMono (upMembers f parent) := by
  unfold upMembers
  split
  · exact strictMono_up hf
  · exact strictMono_up (strictMono_up hf)

theorem upMembers_id (parent : Tree) : upMembers id parent = id := by
  unfold upMembers
  split <;> simp

namespace Tree

mutual

/-- The tree with other depths. -/
def renumber (f : Nat → Nat) : Tree → Tree
  | unary operator right => unary operator (right.renumber f)
  | binary left operator right => binary (left.renumber f) operator (right.renumber f)
  | logical left operator right => logical (left.renumber f) operator (right.renumber f)
  | grouping e => grouping (e.renumber f)
  | ident name depth => ident name (depth.map f)
  | assign name value depth => assign name (value.renumber f) (depth.map f)
  | call callee paren arguments => call (callee.renumber f) paren (arguments.renumber f)
  | getField target name => getField (target.renumber f) name
  | setField target name value => setField (target.renumber f) name (value.renumber f)
  | thisRef keyword depth => thisRef keyword (depth.map f)
  | superRef keyword method depth => superRef keyword method (depth.map f)
  | exprStmt e => exprStmt (e.renumber f)
  | printStmt e => printStmt (e.renumber f)
  | varDecl name initializer => varDecl name (initializer.renumber f)
  | block statements => block (statements.renumber (up f))
  | ifElse condition thenBranch elseBranch =>
    ifElse (condition.renumber f) (thenBranch.renumber f) (elseBranch.renumber f)
  | whileLoop condition body => whileLoop (condition.renumber f) (body.renumber f)
  | funDecl name params body => funDecl name params (body.renumber (up f))
  | returnStmt keyword value => returnStmt keyword (value.renumber f)
  | classDecl name parent methods =>
    classDecl name (parent.renumber f) (methods.renumber (upMembers f parent))
  | list items => list (renumberEach f items)
  | t => t

/-- The same for the trees of a list. -/
def renumberEach (f : Nat → Nat) : List Tree → List Tree
  | [] => []
  | t :: ts => t.renumber f :: renumberEach f ts

end

mutual

/-- The tree can be renumbered. Where it declares a name the innermost scope keeps its number, and
where it names a method of the superclass the scope right inside keeps its place. -/
def Sits (f : Nat → Nat) : Tree → Prop
  | unary _ e | grouping e | assign _ e _ | getField e _ | exprStmt e | printStmt e
  | returnStmt _ e => e.Sits f
  | binary left _ right | logical left _ right | setField left _ right =>
    left.Sits f ∧ right.Sits f
  | call callee _ arguments => callee.Sits f ∧ arguments.Sits f
  | superRef _ _ depth => ∀ d, depth = some d → f d - 1 = f (d - 1)
  | varDecl _ initializer => f 0 = 0 ∧ initializer.Sits f
  | block statements => statements.Sits (up f)
  | ifElse condition thenBranch elseBranch =>
    condition.Sits f ∧ thenBranch.Sits f ∧ elseBranch.Sits f
  | whileLoop condition body => condition.Sits f ∧ body.Sits f
  | funDecl _ _ body => f 0 = 0 ∧ body.Sits (up f)
  | classDecl _ parent methods =>
    f 0 = 0 ∧ parent.Sits f ∧ methods.Sits (upMembers f parent)
  | list items => SitEach f items
  | _ => True

/-- The same for the trees of a list. -/
def SitEach (f : Nat → Nat) : List Tree → Prop
  | [] => True
  | t :: ts => t.Sits f ∧ SitEach f ts

end

theorem renumberEach_eq (f : Nat → Nat) (ts : List Tree) :
    renumberEach f ts = ts.map (renumber f) := by
  induction ts with
  | nil => rfl
  | cons t ts ih => rw [renumberEach, ih, List.map_cons]

theorem sitEach_iff : SitEach f ts ↔ ∀ t ∈ ts, t.Sits f := by
  induction ts with
  | nil => simp [SitEach]
  | cons t ts ih => rw [SitEach, ih, List.forall_mem_cons]

/-! Without a change of the numbers every tree stays as it is. -/

theorem renumber_id (t : Tree) : t.renumber id = t := by
  induction t using children_ind with
  | step t ih =>
    cases t with
    | list items =>
      rw [renumber, renumberEach_eq]
      exact congrArg list ((List.map_congr_left ih).trans items.map_id)
    | _ => simp_all [renumber, upMembers_id, children]

theorem sits_id (t : Tree) : t.Sits id := by
  induction t using children_ind with
  | step t ih =>
    cases t with
    | list items => exact sitEach_iff.2 ih
    | _ => simp_all [Sits, upMembers_id, children]

theorem isNull_renumber (f : Nat → Nat) (t : Tree) : (t.renumber f).isNull = t.isNull := by
  cases t <;> rfl

/-! ## Renumbered trees are run alike -/

section Forms

variable {π : Setting} {t t' : Tree}

/-- The tree is renumbered as the setting says. -/
def RenumberedIn (π : Setting) (t t' : Tree) : Prop :=
  t' = t.renumber π.number ∧ t.Sits π.number

theorem renumberedIn_self (hπ : π.number = id) (t : Tree) : RenumberedIn π t t := by
  unfold RenumberedIn
  rw [hπ, renumber_id]
  exact ⟨rfl, t.sits_id⟩

theorem words_self (t : Tree) : (Change.ofLines Eq).Words t t :=
  .inr ⟨rfl, fun _ => rfl⟩

theorem names_self (marked : Bool) (t : Tree) : (Change.ofLines Eq).Names marked t t := by
  refine .inr ⟨rfl, fun _ => rfl, fun n => ?_⟩
  cases marked <;> rfl

theorem optional_renumber {role : Role} (h : t.Sits π.number) :
    Optional (fun _ => RenumberedIn) π role t (t.renumber π.number) :=
  ⟨t.isNull_renumber _, fun _ => ⟨rfl, h⟩⟩

/-- A renumbered expression has the same form. -/
theorem RenumberedIn.expressionForm (h : RenumberedIn π t t') :
    ExpressionForm (.ofLines Eq) (fun _ => RenumberedIn) π t t' := by
  obtain ⟨rfl, hs⟩ := h
  have hw := words_self
  have hn := names_self
  cases t with
  | literal => exact .literal
  | grouping e => exact .grouping ⟨rfl, hs⟩
  | unary operator e => exact .unary (hw _) ⟨rfl, hs⟩
  | binary l operator r => exact .binary ⟨rfl, hs.1⟩ (hw _) ⟨rfl, hs.2⟩
  | logical l operator r => exact .logical ⟨rfl, hs.1⟩ (hw _) ⟨rfl, hs.2⟩
  | ident name depth => exact .ident rfl (hn _ _)
  | assign name e depth => exact .assign rfl (hn _ _) ⟨rfl, hs⟩
  | call callee paren arguments => exact .call ⟨rfl, hs.1⟩ (hw _) ⟨rfl, hs.2⟩
  | getField object name => exact .getField ⟨rfl, hs⟩ (hw _)
  | setField object name e => exact .setField ⟨rfl, hs.1⟩ (hw _) ⟨rfl, hs.2⟩
  | thisRef keyword depth => exact .thisRef rfl (hn _ _)
  | superRef keyword method depth => exact .superRef rfl hs (hw _)
  | _ => exact .misplaced (fun _ _ => rfl) fun _ _ => rfl

/-- A renumbered statement has the same form. -/
theorem RenumberedIn.statementForm (h : RenumberedIn π t t') :
    StatementForm (.ofLines Eq) (fun _ => RenumberedIn) π t t' := by
  obtain ⟨rfl, hs⟩ := h
  have hw := words_self
  have hn := names_self
  cases t with
  | exprStmt e => exact .exprStmt ⟨rfl, hs⟩
  | printStmt e => exact .printStmt ⟨rfl, hs⟩
  | varDecl name e => exact .varDecl hs.1 (hn _ _) (optional_renumber hs.2)
  | block items => exact .block (show RenumberedIn (π.inside false) _ _ from ⟨rfl, hs⟩)
  | ifElse c t e => exact .ifElse ⟨rfl, hs.1⟩ ⟨rfl, hs.2.1⟩ (optional_renumber hs.2.2)
  | whileLoop c t => exact .whileLoop ⟨rfl, hs.1⟩ ⟨rfl, hs.2⟩
  | funDecl name params body => exact .funDecl hs.1 (hw _) (hn _ _) ⟨rfl, hs⟩
  | returnStmt keyword e => exact .returnStmt (optional_renumber hs)
  | classDecl name parent methods =>
    obtain ⟨h0, hparent, hmethods⟩ := hs
    have hup : upMembers π.number parent = (π.aroundMethods parent).number := by
      unfold upMembers Setting.aroundMethods
      split <;> rfl
    have hslot : (parent.renumber π.number).nameSlot = parent.nameSlot := by cases parent <;> rfl
    refine .classDecl h0 (hw _) (hn _ _) (optional_renumber hparent) ?_
      ⟨congrArg (Tree.renumber · methods) hup, hup ▸ hmethods⟩
    rw [hslot]
    cases parent.nameSlot with
    | ok n => exact .ok ⟨false, hn _ n⟩
    | error fault => exact .error fault
  | _ => exact .misplaced (fun _ _ => rfl) fun _ _ => rfl

/-- A renumbered method has the same form. -/
theorem RenumberedIn.methodForm (h : RenumberedIn π t t') :
    MethodForm (.ofLines Eq) (fun _ => RenumberedIn) π t t' := by
  obtain ⟨rfl, hs⟩ := h
  refine ⟨?_, ?_⟩
  · have hname : (t.renumber π.number).nameToken = t.nameToken := by
      cases t <;> rfl
    rw [hname]
    cases t.nameToken with
    | ok a => exact .ok rfl
    | error fault => exact .error fault
  · cases t with
    | funDecl name params body =>
      show SameFault _ (params.asItems >>= _) (params.asItems >>= _)
      refine SameFault.bind (.refl params.asItems) ?_
      rintro _ items rfl
      exact .ok ⟨hs.1, false, List.forall₂_same.2 fun n _ => names_self false n, rfl, hs.2⟩
    | _ => exact .error _

/-- The items of a renumbered list. -/
theorem asItems_renumber (f : Nat → Nat) (t : Tree) :
    (t.renumber f).asItems = t.asItems.map (List.map (renumber f)) := by
  cases t with
  | list items => exact congrArg Except.ok (renumberEach_eq f items)
  | scalar s =>
    cases s with
    | str s =>
      refine congrArg Except.ok ?_
      rw [List.map_map]
      rfl
    | _ => rfl
  | _ => rfl

/-- What sits in a list sits there item by item. -/
theorem sits_asItems {items : List Tree} (h : t.Sits f) (hi : t.asItems = .ok items) :
    ∀ u ∈ items, u.Sits f := by
  cases t with
  | list ts =>
    cases hi
    exact sitEach_iff.1 h
  | scalar s =>
    cases s with
    | str s =>
      cases hi
      intro u hu
      obtain ⟨c, -, rfl⟩ := List.mem_map.1 hu
      trivial
    | _ => cases hi
  | _ => cases hi

/-- A tree corresponds to the tree renumbered, whatever the tree. -/
def renumbering (ordered : Prop) : Correspondence where
  change := .ofLines Eq
  Like _ := RenumberedIn
  isNull_eq h := h.1 ▸ isNull_renumber _ _
  expression h := h.expressionForm
  statement h := h.statementForm
  method h := h.methodForm
  items {_ _ π t t'} _ h := by
    obtain ⟨rfl, hs⟩ := h
    rw [asItems_renumber]
    cases hi : t.asItems with
    | error fault => exact .error fault
    | ok items =>
      refine .ok (List.forall₂_map_right_iff.2 (List.forall₂_same.2 fun u hu => ?_))
      exact ⟨rfl, sits_asItems hs hi u hu⟩
  traced := True
  faithful _ := ⟨fun _ => rfl, fun h => h.symm⟩
  ordered := ordered

end Forms

end Tree

variable {k : InClass}

namespace Resolver

variable {t u : Tree} {f : Nat → Nat} {S : List Frame} {c : Context} {role : Role} {i : Nat}

/-! ## Open scopes -/

/-- In the second list of scopes each name is found where the function says. -/
def Renumbers (f : Nat → Nat) (S S' : List Frame) : Prop :=
  ∀ key, depthOf? S' key = (depthOf? S key).map f

/-- The two lists have the same innermost scope, and the ones around it are renumbered. -/
inductive Shares : (Nat → Nat) → List Frame → List Frame → Prop where
  | intro {g : Nat → Nat} {T T' : List Frame} (frame : Frame) (outer : Renumbers g T T') :
      Shares (up g) (frame :: T) (frame :: T')

section Shares

variable {f : Nat → Nat} {S S' : List Frame}

theorem renumbers_id (S : List Frame) : Renumbers id S S := by
  intro key
  rw [Option.map_id, id_eq]

/-- One scope more around everything. -/
theorem renumbers_empty_cons (S : List Frame) : Renumbers (· + 1) S (.empty :: S) :=
  depthOf?_empty_cons S

theorem shares_id (frame : Frame) (T : List Frame) : Shares id (frame :: T) (frame :: T) := by
  have h := Shares.intro frame (renumbers_id T)
  rwa [up_id] at h

theorem Shares.zero (h : Shares f S S') : f 0 = 0 := by
  cases h
  rfl

theorem Shares.renumbers (h : Shares f S S') : Renumbers f S S' := by
  obtain ⟨frame, houter⟩ := h
  intro key
  rw [depthOf?_cons, depthOf?_cons, houter key]
  split
  · rfl
  · rw [Option.map_map, Option.map_map]
    rfl

theorem Shares.bindName (h : Shares f S S') (name : Tree) (ready : Bool) :
    Shares f (bindName S name ready) (bindName S' name ready) := by
  obtain ⟨frame, houter⟩ := h
  unfold Resolver.bindName
  cases name.asName with
  | ok key => exact .intro _ houter
  | error _ => exact .intro _ houter

theorem Shares.bindReady (h : Shares f S S') (name : Tree) :
    Shares f (bindReady S name) (bindReady S' name) :=
  (h.bindName name false).bindName name true

theorem Shares.afterStatement (h : Shares f S S') (t : Tree) :
    Shares f (afterStatement S t) (afterStatement S' t) := by
  unfold Resolver.afterStatement
  split
  · exact h.bindReady _
  · exact h

theorem Shares.foldl {bind : List Frame → Tree → List Frame}
    (hbind : ∀ {S S' : List Frame} t, Shares f S S' → Shares f (bind S t) (bind S' t))
    (ts : List Tree) : ∀ {S S' : List Frame}, Shares f S S' →
      Shares f (ts.foldl bind S) (ts.foldl bind S') := by
  induction ts with
  | nil => exact fun h => h
  | cons t ts ih => exact fun h => ih (hbind t h)

theorem Renumbers.inside (h : Renumbers f S S') (frame : Frame) (params : List Tree) :
    Shares (up f) (params.foldl bindReady (frame :: S))
      (params.foldl bindReady (frame :: S')) :=
  Shares.foldl (fun t h => h.bindReady t) params (.intro frame h)

theorem Renumbers.aroundMethods (h : Renumbers f S S') (parent : Tree) :
    Shares (upMembers f parent) (aroundMethods S parent) (aroundMethods S' parent) := by
  unfold upMembers Resolver.aroundMethods
  split
  · exact .intro _ h
  · exact .intro _ (Shares.intro _ h).renumbers

/-- The scope of `this` stays right inside the one of `super`. -/
theorem Renumbers.beside (h : Renumbers f S S') (hf : StrictMono f) {this super : Name} {d e : Nat}
    (hthis : depthOf? S' this = some d) (hsuper : depthOf? S' super = some (d + 1))
    (he : depthOf? S super = some e) : f e - 1 = f (e - 1) := by
  rw [h, he] at hsuper
  rw [h] at hthis
  obtain ⟨e', -, he'⟩ := Option.map_eq_some_iff.1 hthis
  have hfe : f e = d + 1 := Option.some.inj hsuper
  have hlt : e' < e := hf.lt_iff_lt.1 (by omega)
  have hle : f e' ≤ f (e - 1) := hf.monotone (by omega)
  have hlt' : f (e - 1) < f e := hf (by omega)
  omega

end Shares

/-! ## Resolving once more -/

theorem afterStatement_written (S T : List Frame) (k : InClass) (t : Tree) :
    afterStatement S (written T k t) = afterStatement S t := by
  unfold afterStatement
  rw [declared?_written]

/-! What a tree was resolved to before does not matter. -/

mutual

/-- The depths that were written before do not matter. -/
theorem written_written (S T : List Frame) (k l : InClass) :
    ∀ t : Tree, written S k (written T l t) = written S k t
  | .scalar _ | .token _ | .object _ | .literal .. | .list _ => rfl
  | .ident .. | .thisRef .. | .superRef .. => rfl
  | .unary _ e | .grouping e | .assign _ e _ | .getField e _ | .exprStmt e | .printStmt e
  | .returnStmt _ e => by simp only [written, written_written S T k l e]
  | .varDecl n e => by
    simp only [written, written_written (bindName S n false) (bindName T n false) k l e]
  | .binary a _ b | .logical a _ b | .setField a _ b | .whileLoop a b => by
    simp only [written, written_written S T k l a, written_written S T k l b]
  | .ifElse a b c => by
    simp only [written, written_written S T k l a, written_written S T k l b,
      written_written S T k l c]
  | .call a _ args => by
    cases args with
    | list items =>
      simp only [written, written_written S T k l a, writtenEach_writtenEach S T k l items]
    | _ => rfl
  | .block b => by
    cases b with
    | list items => simp only [written, writtenIn_writtenIn _ _ k l items]
    | _ => rfl
  | .funDecl _ params b => by
    cases params with
    | list _ =>
      cases b with
      | list items => simp only [written, writtenIn_writtenIn _ _ k l items]
      | _ => rfl
    | _ => rfl
  | .classDecl n p methods => by
    cases methods with
    | list items =>
      simp only [written, written_written (bindReady S n) (bindReady T n) k l p, aroundMethods,
        classKind, isNull_written, writtenMethods_writtenMethods _ _ _ _ items]
    | _ => rfl

theorem writtenEach_writtenEach (S T : List Frame) (k l : InClass) :
    ∀ ts : List Tree, writtenEach S k (writtenEach T l ts) = writtenEach S k ts
  | [] => rfl
  | t :: ts => by
    simp only [writtenEach, written_written S T k l t, writtenEach_writtenEach S T k l ts]

theorem writtenIn_writtenIn (S T : List Frame) (k l : InClass) :
    ∀ ts : List Tree, writtenIn S k (writtenIn T l ts) = writtenIn S k ts
  | [] => rfl
  | t :: ts => by
    simp only [writtenIn, written_written S T k l t, afterStatement_written,
      writtenIn_writtenIn (afterStatement S t) (afterStatement T t) k l ts]

theorem writtenMethod_writtenMethod (S T : List Frame) (k l : InClass) :
    ∀ t : Tree, writtenMethod S k (writtenMethod T l t) = writtenMethod S k t
  | .funDecl _ params b => by
    cases params with
    | list _ =>
      cases b with
      | list items => simp only [writtenMethod, writtenIn_writtenIn _ _ k l items]
      | _ => rfl
    | _ => rfl
  | .scalar _ | .list _ | .token _ | .object _ | .literal .. | .unary .. | .binary ..
  | .logical .. | .grouping _ | .ident .. | .assign .. | .call .. | .getField .. | .setField ..
  | .thisRef .. | .superRef .. | .exprStmt _ | .printStmt _ | .varDecl .. | .block _ | .ifElse ..
  | .whileLoop .. | .returnStmt .. | .classDecl .. => rfl

theorem writtenMethods_writtenMethods (S T : List Frame) (k l : InClass) :
    ∀ ts : List Tree, writtenMethods S k (writtenMethods T l ts) = writtenMethods S k ts
  | [] => rfl
  | t :: ts => by
    simp only [writtenMethods, writtenMethod_writtenMethod S T k l t,
      writtenMethods_writtenMethods S T k l ts]

end


/-! ## Trees of a program -/

/-- Renumbered, the first tree is the second one. -/
structure RenumbersTo (f : Nat → Nat) (u t : Tree) : Prop where
  eq : u.renumber f = t
  sits : u.Sits f

theorem RenumbersTo.eq_of_id (h : RenumbersTo id u t) : u = t :=
  u.renumber_id.symm.trans h.eq

/-- The tree of a role with the depths that it gets where the given scopes are open. -/
def writtenAs (S : List Frame) (k : InClass) : Role → Tree → Tree
  | .body, .list items => .list (writtenIn S k items)
  | .arguments, .list items => .list (writtenEach S k items)
  | .members, .list items => .list (writtenMethods S k items)
  | .method, t => writtenMethod S k t
  | _, t => written S k t

/-- How far the two lists of scopes go together for the tree of a role. Where the tree can declare a
name the innermost scope is the same. -/
def Meets (f : Nat → Nat) (S S' : List Frame) : Role → Tree → Prop
  | .expression, _ | .arguments, _ => Renumbers f S S'
  | .statement, t => Renumbers f S S' ∧ (t.declared?.isSome → Shares f S S')
  | _, _ => Shares f S S'

theorem Shares.meets {S' : List Frame} (h : Shares f S S') (role : Role) (t : Tree) :
    Meets f S S' role t := by
  cases role with
  | statement => exact ⟨h.renumbers, fun _ => h⟩
  | expression | arguments => exact h.renumbers
  | method | body | members => exact h

theorem renumbersTo_null (h : t.isNull = false → RenumbersTo f (written S k t) t) :
    RenumbersTo f (written S k t) t := by
  cases hn : t.isNull with
  | false => exact h hn
  | true =>
    obtain rfl : t = .null := by
      unfold Tree.isNull at hn
      split at hn
      · rfl
      · cases hn
    exact ⟨rfl, trivial⟩

/-- Lists are renumbered item by item. -/
theorem renumbersTo_list {us : List Tree} {write : Nat → Tree → Tree}
    (hus : ∀ j, us[j]? = ts[j]?.map (write j))
    (h : ∀ j t, ts[j]? = some t → RenumbersTo f (write j t) t) :
    RenumbersTo f (.list us) (.list ts) := by
  constructor
  · rw [Tree.renumber, Tree.renumberEach_eq]
    congr 1
    apply List.ext_getElem?
    intro j
    rw [List.getElem?_map, hus]
    cases ht : ts[j]? with
    | none => rfl
    | some t => exact congrArg some (h j t ht).eq
  · rw [Tree.Sits, Tree.sitEach_iff]
    intro u hu
    obtain ⟨j, hj⟩ := List.getElem?_of_mem hu
    rw [hus] at hj
    obtain ⟨t, ht, rfl⟩ := Option.map_eq_some_iff.1 hj
    exact (h j t ht).sits

/-- A tree that was resolved in the scopes of the context is the one that would have been resolved
in other scopes, renumbered. -/
def Transfers (c : Context) (t : Tree) : Prop :=
  ∀ ⦃f : Nat → Nat⦄ ⦃S : List Frame⦄ ⦃k : InClass⦄, StrictMono f → k ≠ .none →
    Meets f S c.scopes c.role t → RenumbersTo f (writtenAs S k c.role t) t

section Transfers

variable {S' : List Frame} {t : Tree}

/-- An expression transfers if all below it does. -/
theorem transfers_expression (here : Fine ⟨.expression, S'⟩ t)
    (below : ∀ {i c u}, Context.inside ⟨.expression, S'⟩ t i = some c → t.children[i]? = some u →
      Formed c.role u ∧ Transfers c u) : Transfers ⟨.expression, S'⟩ t := by
  intro f S k hf hk (hS : Renumbers f S S')
  obtain ⟨hformed, hsettled⟩ := here
  have inner {u : Tree} (i : Nat)
      (hc : Context.inside ⟨.expression, S'⟩ t i = some ⟨.expression, S'⟩)
      (hu : t.children[i]? = some u) : RenumbersTo f (written S k u) u :=
    (below hc hu).2 hf hk hS
  cases hformed with
  | literal => exact ⟨rfl, trivial⟩
  | unary => exact ⟨congrArg _ (inner 1 rfl rfl).eq, (inner 1 rfl rfl).sits⟩
  | grouping => exact ⟨congrArg _ (inner 0 rfl rfl).eq, (inner 0 rfl rfl).sits⟩
  | getField =>
    exact ⟨congrArg (Tree.getField · _) (inner 0 rfl rfl).eq, (inner 0 rfl rfl).sits⟩
  | binary =>
    have hl := inner 0 rfl rfl
    have hr := inner 2 rfl rfl
    exact ⟨congrArg₂ (Tree.binary · _ ·) hl.eq hr.eq, hl.sits, hr.sits⟩
  | logical =>
    have hl := inner 0 rfl rfl
    have hr := inner 2 rfl rfl
    exact ⟨congrArg₂ (Tree.logical · _ ·) hl.eq hr.eq, hl.sits, hr.sits⟩
  | setField =>
    have ho := inner 0 rfl rfl
    have hv := inner 2 rfl rfl
    exact ⟨congrArg₂ (Tree.setField · _ ·) ho.eq hv.eq, ho.sits, hv.sits⟩
  | call =>
    have hc := inner 0 rfl rfl
    obtain ⟨hargs, ha⟩ := below (i := 2) rfl rfl
    cases hargs with
    | arguments =>
      have ha := ha (k := k) hf hk hS
      exact ⟨congrArg₂ (Tree.call · _ ·) hc.eq ha.eq, hc.sits, ha.sits⟩
  | ident hname =>
    obtain ⟨s, hs, -⟩ := hname.exists_key
    refine ⟨?_, trivial⟩
    simp only [writtenAs, written, Tree.renumber, depthIn, hs]
    rw [(hsettled _ hs).1, ← hS]
  | assign hname =>
    obtain ⟨s, hs, -⟩ := hname.exists_key
    have hv := inner 1 rfl rfl
    refine ⟨?_, hv.sits⟩
    simp only [writtenAs, written, Tree.renumber, depthIn, hs]
    rw [hv.eq, hsettled _ hs, ← hS]
  | thisRef hword =>
    obtain ⟨d, rfl, hd, -⟩ := hsettled
    refine ⟨?_, trivial⟩
    simp only [writtenAs, written, Tree.renumber, depthIn, hword.asName, if_neg hk]
    rw [← hS, hd]
  | superRef hword =>
    obtain ⟨d, rfl, hd, -, hd', -⟩ := hsettled
    constructor
    · simp only [writtenAs, written, Tree.renumber, depthIn, hword.asName]
      rw [← hS, hd]
    · simp only [writtenAs, written, Tree.Sits, depthIn, hword.asName]
      exact fun e he => hS.beside hf hd' hd he

theorem inside_optional (hrole : Role.statement.inside t i = role.optional u)
    (hscopes : scopesInside S' .statement t i = T) (hu : u.isNull = false) :
    Context.inside ⟨.statement, S'⟩ t i = some ⟨role, T⟩ := by
  simp [Context.inside, hrole, hscopes, Role.optional, hu]

theorem classKind_ne_none (parent : Tree) : classKind parent ≠ .none := by
  unfold classKind
  split <;> decide

/-- A class transfers if its methods do. -/
theorem transfers_class {name parent methods : Tree}
    (hformed : Formed .statement (.classDecl name parent methods))
    (below : ∀ {i c u},
      Context.inside ⟨.statement, S'⟩ (.classDecl name parent methods) i = some c →
      (Tree.classDecl name parent methods).children[i]? = some u →
      Formed c.role u ∧ Transfers c u) :
    Transfers ⟨.statement, S'⟩ (.classDecl name parent methods) := by
  rintro f S k hf hk ⟨-, hshares⟩
  have hS := hshares rfl
  have hT := (hS.bindReady name).renumbers
  have hp : RenumbersTo f (written (bindReady S name) k parent) parent :=
    renumbersTo_null fun hn => (below (inside_optional (i := 1) rfl rfl hn) rfl).2 hf hk hT
  obtain ⟨hlist, hm⟩ := below (i := 2) rfl rfl
  cases hlist with
  | members =>
    have hm := hm (k := classKind parent) (strictMono_upMembers hf parent)
      (classKind_ne_none parent) (hT.aroundMethods parent)
    have hup : upMembers f (written (bindReady S name) k parent) = upMembers f parent := by
      unfold upMembers
      rw [isNull_written]
    constructor
    · simp only [writtenAs, written, Tree.renumber, hup, hp.eq]
      exact congrArg _ hm.eq
    · simp only [writtenAs, written, Tree.Sits, hup]
      exact ⟨hS.zero, hp.sits, hm.sits⟩

/-- A statement transfers if all below it does. -/
theorem transfers_statement (here : Fine ⟨.statement, S'⟩ t)
    (below : ∀ {i c u}, Context.inside ⟨.statement, S'⟩ t i = some c → t.children[i]? = some u →
      Formed c.role u ∧ Transfers c u) : Transfers ⟨.statement, S'⟩ t := by
  rintro f S k hf hk ⟨hS, hshares⟩
  have expr {u : Tree} (i : Nat)
      (hc : Context.inside ⟨.statement, S'⟩ t i = some ⟨.expression, S'⟩)
      (hu : t.children[i]? = some u) : RenumbersTo f (written S k u) u :=
    (below hc hu).2 hf hk hS
  have branch {u : Tree} (i : Nat) (hd : u.declared? = none)
      (hc : Context.inside ⟨.statement, S'⟩ t i = some ⟨.statement, S'⟩)
      (hu : t.children[i]? = some u) : RenumbersTo f (written S k u) u :=
    (below hc hu).2 hf hk ⟨hS, by simp [hd]⟩
  obtain ⟨hformed, -⟩ := here
  cases hformed with
  | exprStmt | printStmt => exact ⟨congrArg _ (expr 0 rfl rfl).eq, (expr 0 rfl rfl).sits⟩
  | returnStmt =>
    have hv := renumbersTo_null fun hn => expr 1 (inside_optional rfl rfl hn) rfl
    exact ⟨congrArg _ hv.eq, hv.sits⟩
  | varDecl =>
    have hS := hshares rfl
    have hv := renumbersTo_null fun hn =>
      (below (inside_optional (i := 1) rfl rfl hn) rfl).2 hf hk (hS.bindName _ false).renumbers
    exact ⟨congrArg _ hv.eq, hS.zero, hv.sits⟩
  | block =>
    obtain ⟨hlist, hb⟩ := below (i := 0) rfl rfl
    cases hlist with
    | body =>
      have hb := hb (strictMono_up hf) hk (hS.inside .empty [])
      exact ⟨congrArg _ hb.eq, hb.sits⟩
  | ifElse ht he =>
    have hc := expr 0 rfl rfl
    have ht := branch 1 ht rfl rfl
    have he := renumbersTo_null fun hn => branch 2 he (inside_optional rfl rfl hn) rfl
    exact ⟨by simp only [writtenAs, written, Tree.renumber, hc.eq, ht.eq, he.eq],
      hc.sits, ht.sits, he.sits⟩
  | whileLoop hd =>
    have hc := expr 0 rfl rfl
    have hb := branch 1 hd rfl rfl
    exact ⟨congrArg₂ Tree.whileLoop hc.eq hb.eq, hc.sits, hb.sits⟩
  | @funDecl name _ params =>
    have hS := hshares rfl
    obtain ⟨hlist, hb⟩ := below (i := 2) rfl rfl
    cases hlist with
    | body =>
      have hb := hb (strictMono_up hf) hk ((hS.bindReady name).renumbers.inside .empty params)
      exact ⟨congrArg _ hb.eq, hS.zero, hb.sits⟩
  | rootClass hname => exact transfers_class (.rootClass hname) below hf hk ⟨hS, hshares⟩
  | subclass hname hparent =>
    exact transfers_class (.subclass hname hparent) below hf hk ⟨hS, hshares⟩

/-- A method transfers if its body does. -/
theorem transfers_method (here : Fine ⟨.method, S'⟩ t)
    (below : ∀ {i c u}, Context.inside ⟨.method, S'⟩ t i = some c → t.children[i]? = some u →
      Formed c.role u ∧ Transfers c u) : Transfers ⟨.method, S'⟩ t := by
  intro f S k hf hk (hS : Shares f S S')
  cases here.formed with
  | @method name _ params =>
    obtain ⟨hlist, hb⟩ := below (i := 2) rfl rfl
    cases hlist with
    | body =>
      have hb := hb (strictMono_up hf) hk (hS.renumbers.inside .empty params)
      exact ⟨congrArg _ hb.eq, hS.zero, hb.sits⟩

end Transfers

/-- What was resolved in some scopes is what would have been resolved in others, renumbered. -/
theorem transfers_of_everywhere (h : Everywhere Fine c t) : Transfers c t := by
  induction h with
  | @intro c t here hbelow ih =>
  obtain ⟨role, S'⟩ := c
  have below {i : Nat} {c : Context} {u : Tree} (hc : Context.inside ⟨role, S'⟩ t i = some c)
      (hu : t.children[i]? = some u) : Formed c.role u ∧ Transfers c u :=
    ⟨(hbelow hc hu).here.formed, ih hc hu⟩
  cases role with
  | expression => exact transfers_expression here below
  | statement => exact transfers_statement here below
  | method => exact transfers_method here below
  | body =>
    cases here.formed with
    | body =>
      intro f S k hf hk (hS : Shares f S S')
      exact renumbersTo_list (getElem?_writtenIn _ S k) fun j t ht =>
        ih (i := j) rfl ht hf hk (((hS.foldl fun t h => h.afterStatement t) _).meets .statement t)
  | arguments =>
    cases here.formed with
    | arguments =>
      intro f S k hf hk (hS : Renumbers f S S')
      refine renumbersTo_list (fun j => ?_) fun j t ht => ih (i := j) rfl ht hf hk hS
      simp only [writtenEach_eq, List.getElem?_map]
      rfl
  | members =>
    cases here.formed with
    | members =>
      intro f S k hf hk (hS : Shares f S S')
      refine renumbersTo_list (fun j => ?_) fun j t ht => ih (i := j) rfl ht hf hk hS
      simp only [writtenMethods_eq, List.getElem?_map]
      rfl

/-! ## Places of a program -/

/-- A walk of statements does not look at their depths. -/
theorem foldl_afterStatement_writtenIn (k : InClass) (ts : List Tree) :
    ∀ (S T : List Frame) (i : Nat),
      ((writtenIn T k ts).take i).foldl afterStatement S = (ts.take i).foldl afterStatement S := by
  induction ts with
  | nil => exact fun _ _ _ => rfl
  | cons t ts ih =>
    intro S T i
    cases i with
    | zero => rfl
    | succ i =>
      simp only [writtenIn, List.take_succ_cons, List.foldl_cons, afterStatement_written]
      exact ih _ _ i

/-- What stands in an optional slot. -/
theorem written_optional {v : Tree} (ht : Role.statement.inside t i = role.optional u)
    (hv : Role.statement.inside v i = role.optional (written T k u))
    (hT : scopesInside S .statement t i = T) (hT' : scopesInside S .statement v i = T)
    (hw : writtenAs T k role u = written T k u) (hi : v.children[i]? = some (written T k u))
    (hc : Context.inside ⟨.statement, S⟩ t i = some c) :
    ∃ k', v.children[i]? = some (writtenAs c.scopes k' c.role u) ∧
      Context.inside ⟨.statement, S⟩ v i = some c := by
  unfold Context.inside at hc ⊢
  unfold Role.optional at ht hv
  rw [isNull_written] at hv
  simp only [ht, hv, hT, hT'] at hc ⊢
  cases hn : u.isNull with
  | true =>
    rw [hn] at hc
    cases hc
  | false =>
    rw [hn] at hc
    cases hc
    exact ⟨k, hi.trans (congrArg some hw.symm), rfl⟩

/-- A part of a written tree is the part, written where it stands. -/
theorem written_child {c' : Context} (h : Everywhere (fun c u => Formed c.role u) c t)
    (hc : c.inside t i = some c') (hu : t.children[i]? = some u) (k : InClass) :
    ∃ k', (writtenAs c.scopes k c.role t).children[i]? = some (writtenAs c'.scopes k' c'.role u) ∧
      c.inside (writtenAs c.scopes k c.role t) i = some c' := by
  have hchild := (h.child i hc hu).here
  have hformed := h.here
  obtain ⟨role, S⟩ := c
  cases hformed with
  | @body items =>
    cases hc
    refine ⟨k, ?_, ?_⟩
    · exact (getElem?_writtenIn items S k i).trans (congrArg (Option.map _) hu)
    · exact congrArg (fun T => some (⟨.statement, T⟩ : Context))
        (foldl_afterStatement_writtenIn k items S S i)
  | arguments =>
    cases hc
    refine ⟨k, ?_, rfl⟩
    show (writtenEach S k _)[i]? = _
    rw [writtenEach_eq, List.getElem?_map]
    exact congrArg (Option.map _) hu
  | members =>
    cases hc
    refine ⟨k, ?_, rfl⟩
    show (writtenMethods S k _)[i]? = _
    rw [writtenMethods_eq, List.getElem?_map]
    exact congrArg (Option.map _) hu
  | method | funDecl =>
    rcases i with _ | _ | _ | i <;> cases hu <;> cases hc
    cases hchild
    exact ⟨k, rfl, rfl⟩
  | varDecl | returnStmt =>
    rcases i with _ | _ | _ | i <;> cases hu
    · cases hc
    · exact written_optional rfl rfl rfl rfl rfl rfl hc
  | block =>
    rcases i with _ | i <;> cases hu
    cases hc
    cases hchild
    exact ⟨k, rfl, rfl⟩
  | ifElse =>
    rcases i with _ | _ | _ | i <;> cases hu
    · cases hc
      exact ⟨k, rfl, rfl⟩
    · cases hc
      exact ⟨k, rfl, rfl⟩
    · exact written_optional rfl rfl rfl rfl rfl rfl hc
  | rootClass =>
    have hmethods := (h.child 2 rfl rfl).here
    cases hmethods
    rcases i with _ | _ | _ | i <;> cases hu <;> cases hc
    exact ⟨.root, rfl, rfl⟩
  | subclass =>
    have hmethods := (h.child 2 rfl rfl).here
    cases hmethods
    rcases i with _ | _ | _ | i <;> cases hu <;> cases hc
    · exact ⟨k, rfl, rfl⟩
    · exact ⟨.subclass, rfl, rfl⟩
  | call =>
    have harguments := (h.child 2 rfl rfl).here
    cases harguments
    rcases i with _ | _ | _ | i <;> cases hu <;> cases hc <;> exact ⟨k, rfl, rfl⟩
  | _ =>
    rcases i with _ | _ | _ | i <;> cases hu <;> cases hc <;> exact ⟨k, rfl, rfl⟩

/-- What stands in a slot that is not walked: a leaf, or the parameters of a function. -/
def Unwalked (t : Tree) : Prop :=
  t.children = [] ∨ ∃ params : List Tree, t = .list params ∧ ∀ p ∈ params, p.children = []

theorem children_of_isName (h : t.IsName) : t.children = [] := by
  obtain ⟨token, s, rfl, -⟩ := h
  rfl

theorem children_of_isWord {word : String} (h : t.IsWord word) : t.children = [] := by
  obtain ⟨token, rfl, -⟩ := h
  rfl

theorem unwalked_optional (h : role.optional t = none) : Unwalked t := by
  unfold Role.optional at h
  split at h
  · next hn =>
    cases t with
    | scalar => exact .inl rfl
    | _ => cases hn
  · cases h

theorem unwalked_parameters {params : List Tree} (h : ∀ p ∈ params, p.IsName) :
    Unwalked (.list params) :=
  .inr ⟨params, rfl, fun p hp => children_of_isName (h p hp)⟩

/-- A walk goes everywhere but to the leaves and the parameters. -/
theorem unwalked_of_inside (h : Formed role t) (hc : role.inside t i = none)
    (hu : t.children[i]? = some u) : Unwalked u := by
  cases h with
  | body | arguments | members => cases hc
  | method hname hparams | funDecl hname hparams =>
    rcases i with _ | _ | _ | i <;> cases hu
    · exact .inl (children_of_isName hname)
    · exact unwalked_parameters hparams
    · cases hc
  | exprStmt | printStmt | block | whileLoop | grouping =>
    rcases i with _ | _ | i <;> cases hu <;> cases hc
  | ifElse =>
    rcases i with _ | _ | _ | i <;> cases hu
    · cases hc
    · cases hc
    · exact unwalked_optional hc
  | varDecl hname =>
    rcases i with _ | _ | i <;> cases hu
    · exact .inl (children_of_isName hname)
    · exact unwalked_optional hc
  | returnStmt =>
    rcases i with _ | _ | i <;> cases hu
    · exact .inl rfl
    · exact unwalked_optional hc
  | rootClass hname | subclass hname =>
    rcases i with _ | _ | _ | i <;> cases hu
    · exact .inl (children_of_isName hname)
    · exact unwalked_optional hc
    · cases hc
  | literal =>
    rcases i with _ | i <;> cases hu
    exact .inl rfl
  | unary | binary | logical | call =>
    rcases i with _ | _ | _ | i <;> cases hu <;> cases hc
    exact .inl rfl
  | ident hname | assign hname =>
    rcases i with _ | _ | i <;> cases hu <;> cases hc
    exact .inl (children_of_isName hname)
  | getField hname | setField hname =>
    rcases i with _ | _ | _ | i <;> cases hu <;> cases hc
    exact .inl (children_of_isName hname)
  | thisRef hword =>
    rcases i with _ | i <;> cases hu
    exact .inl (children_of_isWord hword)
  | superRef hword hname =>
    rcases i with _ | _ | i <;> cases hu
    · exact .inl (children_of_isWord hword)
    · exact .inl (children_of_isName hname)

/-- At each place of a program is a context, or a slot that is not walked. -/
theorem exists_contextAt_or_unwalked {root : Tree}
    (h : Everywhere (fun c u => Formed c.role u) ⟨.body, []⟩ root) :
    ∀ {path : List Nat} {t : Tree}, root.at? path = some t →
      (∃ c, contextAt root path = some c) ∨ Unwalked t := by
  intro path
  induction path with
  | nil => exact fun _ => .inl ⟨_, rfl⟩
  | cons i path ih =>
    intro t ht
    obtain ⟨u, hu, hi⟩ := Option.bind_eq_some_iff.1 ht
    obtain ⟨c, hc⟩ | hleaf | ⟨params, rfl, hparams⟩ := ih hu
    · rw [contextAt, hu, hc]
      show (∃ c', c.inside u i = some c') ∨ Unwalked t
      cases hrole : c.role.inside u i with
      | none => exact .inr (unwalked_of_inside (everywhere_at h hu hc).here hrole hi)
      | some role => exact .inl ⟨_, congrArg (Option.map _) hrole⟩
    · rw [hleaf] at hi
      cases hi
    · exact .inr (.inl (hparams t (List.mem_of_getElem? hi)))

/-- At each place of a program stands what was written there. -/
theorem at?_writtenAs {root : Tree} (h : Everywhere (fun c u => Formed c.role u) ⟨.body, []⟩ root)
    (k : InClass) : ∀ {path : List Nat} {t : Tree} {c : Context}, root.at? path = some t →
      contextAt root path = some c →
      ∃ k', (writtenAs [] k .body root).at? path = some (writtenAs c.scopes k' c.role t) ∧
        contextAt (writtenAs [] k .body root) path = some c := by
  intro path
  induction path with
  | nil =>
    intro t c ht hc
    cases ht
    cases hc
    exact ⟨k, rfl, rfl⟩
  | cons i path ih =>
    intro t c ht hc
    obtain ⟨u, hu, hi⟩ := Option.bind_eq_some_iff.1 ht
    rw [contextAt, hu, Option.bind_some] at hc
    obtain ⟨d, hd, hdi⟩ := Option.bind_eq_some_iff.1 hc
    obtain ⟨l, hl, hcontext⟩ := ih hu hd
    obtain ⟨k', hchild, hinside⟩ := written_child (everywhere_at h hu hd) hdi hi l
    refine ⟨k', ?_, ?_⟩
    · rw [Tree.at?, hl]
      exact hchild
    · rw [contextAt, hl, hcontext]
      exact hinside

end Resolver

end LoxLang
