import LoxLang.Proofs.Resolution
import LoxLang.Proofs.Tokens
import LoxLang.Tree.Uses
import Mathlib.Data.List.Forall2

/-!
# What a walk of the resolver leaves

A walk that gives a result is back where it has started (`Arrives`): in the same kind of function and
class, and with the same scopes open, but for the names that a statement declares in the innermost
one (`Tree.declarations`). This holds of any tree and from any state, whatever is reported on the
way. Of the tree nothing is changed but the depths of the uses that are walked, and a depth that is
written is less than the number of scopes open there (`Rewrites`). `arrives_walks` says all this of
the walks over statements, and `resolver_balanced` puts it in terms of the scopes before and after.
-/

namespace LoxLang

namespace Tree

/-! ## Depths -/

mutual

/-- The tree with no depth written at its uses. -/
def bare : Tree → Tree
  | list items => list (bareIn items)
  | unary op r => unary op (bare r)
  | binary l op r => binary (bare l) op (bare r)
  | logical l op r => logical (bare l) op (bare r)
  | grouping e => grouping (bare e)
  | ident n _ => ident n none
  | assign n v _ => assign n (bare v) none
  | call c p as => call (bare c) p (bare as)
  | getField o n => getField (bare o) n
  | setField o n v => setField (bare o) n (bare v)
  | thisRef k _ => thisRef k none
  | superRef k m _ => superRef k m none
  | exprStmt e => exprStmt (bare e)
  | printStmt e => printStmt (bare e)
  | varDecl n i => varDecl n (bare i)
  | block ss => block (bare ss)
  | ifElse c t e => ifElse (bare c) (bare t) (bare e)
  | whileLoop c b => whileLoop (bare c) (bare b)
  | funDecl n ps b => funDecl n ps (bare b)
  | returnStmt k v => returnStmt k (bare v)
  | classDecl n s ms => classDecl n (bare s) (bare ms)
  | t => t

/-- The same for the trees of a list. -/
def bareIn : List Tree → List Tree
  | [] => []
  | t :: ts => bare t :: bareIn ts

end

mutual

/-- With `n` scopes open around the tree, the depth of each use in it is less than the number of
scopes that are open at the use. -/
def DepthsBelow (n : Nat) : Tree → Prop
  | list items => DepthsBelowIn n items
  | ident _ d | thisRef _ d | superRef _ _ d => ∀ k, d = some k → k < n
  | assign _ v d => DepthsBelow n v ∧ ∀ k, d = some k → k < n
  | unary _ e | grouping e | getField e _ | exprStmt e | printStmt e | varDecl _ e
  | returnStmt _ e => DepthsBelow n e
  | binary l _ r | logical l _ r | call l _ r | setField l _ r | whileLoop l r =>
    DepthsBelow n l ∧ DepthsBelow n r
  | ifElse c t e => DepthsBelow n c ∧ DepthsBelow n t ∧ DepthsBelow n e
  | block ss => DepthsBelow (n + 1) ss
  | funDecl _ _ b => DepthsBelow (n + 1) b
  | classDecl _ s ms => DepthsBelow n s ∧ DepthsBelow (if s.isNull then n + 1 else n + 2) ms
  | _ => True

/-- The same for the trees of a list. -/
def DepthsBelowIn (n : Nat) : List Tree → Prop
  | [] => True
  | t :: ts => DepthsBelow n t ∧ DepthsBelowIn n ts

end

theorem bareIn_eq (ts : List Tree) : bareIn ts = ts.map bare := by
  induction ts with
  | nil => rfl
  | cons t ts ih => rw [bareIn, ih, List.map_cons]

theorem isNull_bare (t : Tree) : t.bare.isNull = t.isNull := by
  cases t <;> rfl

theorem declared?_bare (t : Tree) : t.bare.declared? = t.declared? := by
  cases t <;> rfl

/-- The second tree is the first one, with depths that fit where `n` scopes are open. -/
structure Rewrites (n : Nat) (t t' : Tree) : Prop where
  bare : t'.bare = t.bare
  below : t'.DepthsBelow n

variable {n : Nat} {t t' : Tree}

theorem Rewrites.isNull (h : Rewrites n t t') : t'.isNull = t.isNull := by
  rw [← isNull_bare, h.bare, isNull_bare]

theorem Rewrites.declared? (h : Rewrites n t t') : t'.declared? = t.declared? := by
  rw [← declared?_bare, h.bare, declared?_bare]

theorem rewrites_list {ts ts' : List Tree} (h : List.Forall₂ (Rewrites n) ts ts') :
    Rewrites n (.list ts) (.list ts') := by
  induction h with
  | nil => exact ⟨rfl, trivial⟩
  | @cons t t' ts ts' ht _ ih =>
    refine ⟨congrArg list (congrArg₂ List.cons ht.bare (list.inj ih.bare)), ht.below, ih.below⟩

/-! ## Declarations -/

/-- The names that a statement declares in the scope around it. A branch or a loop is no scope. -/
def declarations : Tree → List Tree
  | varDecl name _ | funDecl name _ _ | classDecl name _ _ => [name]
  | ifElse _ thenBranch elseBranch => thenBranch.declarations ++ elseBranch.declarations
  | whileLoop _ body => body.declarations
  | _ => []

/-- The names that the statements of a sequence declare. -/
def itemDeclarations (slot : Tree) : List Tree :=
  match slot.asItems with
  | .ok items => items.flatMap declarations
  | .error _ => []

theorem declarations_of_isNull (h : t.isNull = true) : t.declarations = [] := by
  rw [eq_null_of_isNull h]
  rfl

/-- In a program of the right form branches and loops declare nothing. -/
theorem declarations_eq (h : WellFormed .statement t) : t.declarations = t.declared?.toList := by
  fun_induction declarations t with
  | case1 | case2 | case3 => rfl
  | case4 c thenBranch elseBranch ihthen ihelse =>
    cases h.formed with
    | ifElse hthen helse =>
      have helse' : elseBranch.declarations = [] := by
        cases hn : elseBranch.isNull with
        | true => exact declarations_of_isNull hn
        | false =>
          rw [ihelse (h.child 2 (by simp [Role.inside, Role.optional, hn]) rfl), helse]
          rfl
      rw [ihthen (h.child 1 rfl rfl), hthen, helse']
      rfl
  | case5 c body ih =>
    cases h.formed with
    | whileLoop hbody =>
      rw [ih (h.child 1 rfl rfl), hbody]
      rfl
  | case6 t hvar hfun hclass hif hwhile =>
    cases h.formed with
    | exprStmt | printStmt | block | returnStmt => rfl
    | varDecl => exact (hvar _ _ rfl).elim
    | funDecl => exact (hfun _ _ _ rfl).elim
    | rootClass | subclass => exact (hclass _ _ _ rfl).elim
    | ifElse => exact (hif _ _ _ rfl).elim
    | whileLoop => exact (hwhile _ _ rfl).elim

end Tree

variable {s s' : State}

namespace Resolver

open LoxLang.Tree (Rewrites)

/-! ## Coming back -/

/-- What the walk knows about where it is. -/
structure Standing where
  scopes : List Frame
  inFunction : InFunction
  inClass : InClass

/-- Where the resolver stands. -/
def State.standing (s : State) : Standing :=
  ⟨s.scopes, s.inFunction, s.inClass⟩

/-- The names have been declared in the innermost scope. -/
def Standing.declaring (here : Standing) (names : List Tree) : Standing :=
  { here with scopes := names.foldl bindReady here.scopes }

theorem length_declaring (here : Standing) (names : List Tree) :
    (here.declaring names).scopes.length = here.scopes.length := by
  obtain ⟨S, _, _⟩ := here
  show (names.foldl bindReady S).length = S.length
  induction names generalizing S with
  | nil => rfl
  | cons name names ih =>
    rw [List.foldl_cons, ih, length_bindReady]

theorem declaring_append (here : Standing) (names names' : List Tree) :
    here.declaring (names ++ names') = (here.declaring names).declaring names' := by
  unfold Standing.declaring
  rw [List.foldl_append]

/-- A walk from the one place that gives a result comes to the other, and the result is as given. -/
def Arrives {α : Type} (x : Resolve α) (here there : Standing) (Q : α → Prop) : Prop :=
  ∀ s : State, s.standing = here → Ends x s (fun a s' => s'.standing = there ∧ Q a) fun _ _ => True

section Arrives

variable {α β : Type} {x : Resolve α} {f : α → Resolve β} {P : α → Prop} {Q : β → Prop}
  {here mid there : Standing}

variable {a : α}

theorem Arrives.standing (h : Arrives x s.standing there P) (hx : x s = .ok a s') :
    s'.standing = there :=
  ((h s rfl).ok hx).1

theorem Arrives.scopes (h : Arrives x s.standing there P) (hx : x s = .ok a s') :
    s'.scopes = there.scopes :=
  congrArg Standing.scopes (h.standing hx)

theorem Arrives.pure {a : α} (h : P a) : Arrives (pure a) here here P :=
  fun _ hs => Ends.pure ⟨hs, h⟩

theorem Arrives.throw {e : Stop} : Arrives (throw e) here there P :=
  fun _ _ => Ends.throw trivial

theorem Arrives.bind (hx : Arrives x here mid P) (hf : ∀ a, P a → Arrives (f a) mid there Q) :
    Arrives (x >>= f) here there Q :=
  fun s hs => (hx s hs).bind fun a s' h => hf a h.2 s' h.1

theorem Arrives.imp {P' : α → Prop} (hx : Arrives x here there P) (h : ∀ a, P a → P' a) :
    Arrives x here there P' :=
  fun s hs => Ends.imp (hx s hs) (fun a _ ha => ⟨ha.1, h a ha.2⟩) fun _ _ h => h

theorem Arrives.get {f : State → Resolve β}
    (h : ∀ s : State, s.standing = here → Arrives (f s) here there Q) :
    Arrives (get >>= f) here there Q :=
  fun s hs => h s hs s hs

theorem Arrives.lift {r : Except Fault α} (h : ∀ a, r = .ok a → Arrives (f a) here there Q) :
    Arrives (lift r >>= f) here there Q := by
  cases r with
  | ok a => exact h a rfl
  | error e => exact .throw

theorem Arrives.condition {c : Prop} [Decidable c] {y z : Resolve α}
    (hy : c → Arrives y here there P) (hz : ¬c → Arrives z here there P) :
    Arrives (if c then y else z) here there P := by
  split
  · next hc => exact hy hc
  · next hc => exact hz hc

theorem arrives_modify {g : State → State}
    (h : ∀ s : State, s.standing = here → (g s).standing = there) :
    Arrives (modify g) here there fun _ => True :=
  fun s hs => ends_modify ⟨h s hs, trivial⟩

/-! ## Steps -/

theorem arrives_openScope (frame : Frame) : Arrives (openScope frame) here
    { here with scopes := frame :: here.scopes } fun _ => True := by
  refine arrives_modify ?_
  rintro s rfl
  rfl

theorem arrives_closeScope :
    Arrives closeScope here { here with scopes := here.scopes.tail } fun _ => True := by
  refine arrives_modify ?_
  rintro s rfl
  rfl

/-- The innermost scope is closed with all that was declared in it. -/
theorem arrives_closeDeclared (here : Standing) (frame : Frame) (names : List Tree) :
    Arrives closeScope (Standing.declaring { here with scopes := frame :: here.scopes } names) here
      fun _ => True := by
  refine arrives_modify fun s hs => ?_
  have htail : s.scopes.tail = here.scopes := by
    rw [show s.scopes = names.foldl bindReady (frame :: here.scopes) from
      congrArg Standing.scopes hs, tail_foldl tail_bindReady]
    rfl
  show Standing.mk s.scopes.tail s.inFunction s.inClass = here
  rw [htail]
  exact congrArg (fun p => Standing.mk here.scopes p.inFunction p.inClass) hs

theorem arrives_inClass (k : InClass) : Arrives (modify fun s => { s with inClass := k }) here
    { here with inClass := k } fun _ => True := by
  refine arrives_modify ?_
  rintro s rfl
  rfl

/-- A declaration binds its name in the innermost scope. -/
theorem arrives_declare (name : Tree) (ready : Bool) : Arrives (declare name ready) here
    { here with scopes := bindName here.scopes name ready } fun _ => True := by
  refine .get ?_
  rintro s rfl
  show Arrives _ ⟨s.scopes, s.inFunction, s.inClass⟩
    ⟨bindName s.scopes name ready, s.inFunction, s.inClass⟩ _
  generalize s.scopes = S
  cases S with
  | nil => exact .pure trivial
  | cons scope outer =>
    refine .lift fun key hkey => ?_
    unfold bindName
    rw [hkey]
    refine arrives_modify fun _ hs => ?_
    exact congrArg (fun p => Standing.mk (scope.insert key ready :: outer) p.inFunction p.inClass) hs

theorem arrives_declareTwice (name : Tree) {f : Unit → Resolve α}
    (h : Arrives (f ()) (here.declaring [name]) there P) :
    Arrives (declare name false >>= fun _ => declare name true >>= f) here there P :=
  (arrives_declare name false).bind fun _ _ => (arrives_declare name true).bind fun _ _ => h

theorem arrives_declareAll : ∀ (names : List Tree) {here : Standing},
    Arrives (declareAll names) here (here.declaring names) fun _ => True
  | [], _ => .pure trivial
  | name :: names, _ => arrives_declareTwice name (arrives_declareAll names)

theorem arrives_report (t : Tree) (problem : Problem) :
    Arrives (report t problem) here here fun _ => True :=
  .lift fun _ _ => arrives_modify fun _ hs => hs

theorem arrives_checkReady (name : Tree) : Arrives (checkReady name) here here fun _ => True := by
  refine .get fun s _ => ?_
  cases s.scopes with
  | nil => exact .pure trivial
  | cons => exact .lift fun _ _ => .condition (fun _ => arrives_report _ _) fun _ => .pure trivial

theorem arrives_checkSuper (keyword : Tree) :
    Arrives (checkSuper keyword) here here fun _ => True := by
  refine .get fun s _ => ?_
  cases s.inClass with
  | none | root => exact arrives_report _ _
  | subclass => exact .pure trivial

theorem arrives_checkReturn (keyword value : Tree) :
    Arrives (checkReturn keyword value) here here fun _ => True := by
  refine .get fun s _ => ?_
  cases s.inFunction with
  | none => exact arrives_report _ _
  | initializer => exact .condition (fun _ => arrives_report _ _) fun _ => .pure trivial
  | function | method => exact .pure trivial

/-- A depth is the number of one of the open scopes. -/
theorem arrives_locate (name : Tree) : Arrives (locate name) here here fun depth =>
    ∀ k, depth = some k → k < here.scopes.length := by
  refine .get ?_
  rintro s rfl
  refine .condition (fun _ => .pure nofun) fun _ => .lift fun key _ => ?_
  split
  · exact .pure nofun
  · next depth hd =>
    refine Arrives.bind (arrives_modify fun _ hs => hs) fun _ _ => .pure ?_
    rintro k ⟨⟩
    exact (List.findIdx?_eq_some_iff_getElem.1 hd).1

/-! ## Slots -/

variable {walk : Tree → Resolve Tree} {n : Nat} {t : Tree}

theorem Arrives.optional (h : Arrives (walk t) here there (Rewrites n t))
    (hnull : t.isNull = true → here = there) :
    Arrives (optional walk t) here there (Rewrites n t) := by
  refine .condition (fun hn => ?_) fun _ => h
  rw [hnull hn, Tree.eq_null_of_isNull hn]
  exact .pure ⟨rfl, trivial⟩

/-- Items one after the other, each of which declares its names. -/
theorem arrives_eachFrom {names : Tree → List Tree}
    (h : ∀ t here, Arrives (walk t) here (here.declaring (names t))
      (Rewrites here.scopes.length t)) :
    ∀ (items done : List Tree) (here : Standing), Arrives (eachFrom walk done items) here
      (here.declaring (items.flatMap names)) fun out =>
        ∃ more, out = done.reverse ++ more ∧
          List.Forall₂ (Rewrites here.scopes.length) items more
  | [], done, here => .pure ⟨[], (List.append_nil _).symm, .nil⟩
  | t :: items, done, here => by
    refine (h t here).bind fun t' ht => ?_
    rw [List.flatMap_cons, declaring_append]
    refine (arrives_eachFrom h items (t' :: done) _).imp ?_
    rintro _ ⟨more, rfl, hmore⟩
    rw [length_declaring] at hmore
    exact ⟨t' :: more, by simp, .cons ht hmore⟩

/-- A list is walked item by item, and declares what its items declare. -/
theorem arrives_eachOf (names : Tree → List Tree)
    (h : ∀ t here, Arrives (walk t) here (here.declaring (names t))
      (Rewrites here.scopes.length t)) {slot : Tree} (declared : List Tree)
    (hdeclared : ∀ items, slot.asItems = .ok items → items.flatMap names = declared) :
    Arrives (eachOf walk slot) here (here.declaring declared)
      (Rewrites here.scopes.length slot) := by
  refine .lift fun items hitems => ?_
  rw [← hdeclared items hitems]
  refine (arrives_eachFrom h items [] here).bind ?_
  rintro _ ⟨more, rfl, hmore⟩
  refine .pure ?_
  unfold Tree.asItems at hitems
  split at hitems
  · cases hitems
    exact Tree.rewrites_list hmore
  · exact ⟨rfl, trivial⟩
  · cases hitems

/-- Items that declare nothing. -/
theorem arrives_eachOfPlain
    (h : ∀ t here, Arrives (walk t) here here (Rewrites here.scopes.length t)) (slot : Tree) :
    Arrives (eachOf walk slot) here here (Rewrites here.scopes.length slot) :=
  arrives_eachOf (fun _ => []) h [] fun _ _ => by simp

/-! ## The walks -/

/-- An expression leaves the scopes as they are. -/
theorem arrives_expression : ∀ (room : Nat) (t : Tree) (here : Standing),
    Arrives (expression room t) here here (Rewrites here.scopes.length t)
  | 0, _, _ => .throw
  | room + 1, t, here => by
    have ih (u : Tree) := arrives_expression room u here
    cases t with
    | literal => exact .pure ⟨rfl, trivial⟩
    | ident =>
      refine (arrives_checkReady _).bind fun _ _ => (arrives_locate _).bind fun _ hd => ?_
      exact .pure ⟨rfl, hd⟩
    | assign name value =>
      refine (ih value).bind fun _ hv => (arrives_locate _).bind fun _ hd => ?_
      exact .pure ⟨congrArg (Tree.assign name · none) hv.bare, hv.below, hd⟩
    | thisRef =>
      refine .get fun s _ => .condition (fun _ => ?_) fun _ => ?_
      · exact (arrives_report _ _).bind fun _ _ => .pure ⟨rfl, nofun⟩
      · exact (arrives_locate _).bind fun _ hd => .pure ⟨rfl, hd⟩
    | superRef =>
      refine (arrives_checkSuper _).bind fun _ _ => (arrives_locate _).bind fun _ hd => ?_
      exact .pure ⟨rfl, hd⟩
    | unary operator =>
      exact (ih _).bind fun _ h => .pure ⟨congrArg (Tree.unary operator) h.bare, h.below⟩
    | grouping => exact (ih _).bind fun _ h => .pure ⟨congrArg Tree.grouping h.bare, h.below⟩
    | getField _ name =>
      exact (ih _).bind fun _ h => .pure ⟨congrArg (Tree.getField · name) h.bare, h.below⟩
    | binary _ operator =>
      refine (ih _).bind fun _ hl => (ih _).bind fun _ hr => .pure ?_
      exact ⟨congrArg₂ (Tree.binary · operator) hl.bare hr.bare, hl.below, hr.below⟩
    | logical _ operator =>
      refine (ih _).bind fun _ hl => (ih _).bind fun _ hr => .pure ?_
      exact ⟨congrArg₂ (Tree.logical · operator) hl.bare hr.bare, hl.below, hr.below⟩
    | setField _ name =>
      refine (ih _).bind fun _ hv => (ih _).bind fun _ ho => .pure ?_
      exact ⟨congrArg₂ (Tree.setField · name) ho.bare hv.bare, ho.below, hv.below⟩
    | call _ paren arguments =>
      refine (ih _).bind fun _ hc => ?_
      refine (arrives_eachOfPlain (arrives_expression room) arguments).bind fun _ ha => .pure ?_
      exact ⟨congrArg₂ (Tree.call · paren) hc.bare ha.bare, hc.below, ha.below⟩
    | _ => exact .throw

/-- The kind of function inside is the given one, and outside it is as before. -/
theorem Arrives.within {kind : InFunction} {S : List Frame}
    (h : Arrives x { here with inFunction := kind } ⟨S, kind, here.inClass⟩ P) :
    Arrives (within kind x) here { here with scopes := S } P := by
  refine .get ?_
  rintro s rfl
  have hset (kind' : InFunction) (p : Standing) :
      Arrives (modify fun s => { s with inFunction := kind' }) p { p with inFunction := kind' }
        fun _ => True :=
    arrives_modify fun _ hs => congrArg (fun p : Standing => { p with inFunction := kind' }) hs
  refine (hset kind _).bind fun _ _ => Arrives.bind h fun a ha => ?_
  exact (hset s.inFunction _).bind fun _ _ => .pure ha

/-- A function is walked in a scope of its own. -/
theorem arrives_routine {body : Tree → Resolve Tree}
    (h : ∀ t here, Arrives (body t) here (here.declaring t.itemDeclarations)
      (Rewrites here.scopes.length t)) (kind : InFunction) (t : Tree) :
    Arrives (routine body kind t) here here (Rewrites here.scopes.length t) := by
  refine .within (S := here.scopes) ((arrives_openScope .empty).bind fun _ _ => ?_)
  refine .lift fun slots hslots => ?_
  obtain ⟨params, statements⟩ := slots
  cases t with
  | funDecl name =>
    cases hslots
    refine .lift fun names _ => (arrives_declareAll names).bind fun _ _ => ?_
    refine (h statements _).bind fun statements' hs => ?_
    rw [length_declaring] at hs
    rw [← declaring_append]
    exact Arrives.bind (arrives_closeDeclared { here with inFunction := kind } .empty _) fun _ _ =>
      .pure ⟨congrArg (Tree.funDecl name params) hs.bare, hs.below⟩
  | _ => cases hslots

/-- A superclass opens a scope if there is one. -/
theorem arrives_superclass (room : Nat) (name parent : Tree) :
    Arrives (superclass (expression room) name parent) here
      ⟨if parent.isNull then here.scopes else superFrame :: here.scopes, here.inFunction,
        if parent.isNull then here.inClass else .subclass⟩
      (Rewrites here.scopes.length parent) := by
  refine .condition (fun hn => ?_) fun hn => ?_
  · rw [if_pos hn, if_pos hn, Tree.eq_null_of_isNull hn]
    exact .pure ⟨rfl, trivial⟩
  · rw [if_neg hn, if_neg hn]
    refine .lift fun parentName _ => .lift fun ownName _ => ?_
    have hrest : Arrives (do
        modify fun s => { s with inClass := .subclass }
        let parent ← expression room parent
        openScope (.single (.ofText "super") true)
        return parent) here ⟨superFrame :: here.scopes, here.inFunction, .subclass⟩
          (Rewrites here.scopes.length parent) :=
      (arrives_inClass .subclass).bind fun _ _ => (arrives_expression room parent _).bind
        fun _ hp => (arrives_openScope _).bind fun _ _ => .pure hp
    refine .condition (fun _ => .lift fun slot _ => ?_) fun _ => hrest
    exact (arrives_report slot _).bind fun _ _ => hrest

/-- A class declares its name and closes its scopes. -/
theorem arrives_classBody {method : Tree → Resolve Tree}
    (h : ∀ t here, Arrives (method t) here here (Rewrites here.scopes.length t)) (room : Nat)
    (name parent methods : Tree) :
    Arrives (classBody (expression room) method name parent methods) here (here.declaring [name])
      (Rewrites here.scopes.length (.classDecl name parent methods)) := by
  refine .get ?_
  rintro s rfl
  refine (arrives_inClass .root).bind fun _ _ => arrives_declareTwice name ?_
  refine (arrives_superclass room name parent).bind fun parent' hp => ?_
  refine (arrives_openScope thisFrame).bind fun _ _ => ?_
  refine (arrives_eachOfPlain h methods).bind fun methods' hm => arrives_closeScope.bind fun _ _ => ?_
  rw [length_declaring] at hp
  have hresult : Rewrites s.scopes.length (.classDecl name parent methods)
      (.classDecl name parent' methods') := by
    refine ⟨congrArg₂ (Tree.classDecl name) hp.bare hm.bare, hp.below, ?_⟩
    have hm := hm.below
    rw [List.length_cons] at hm
    rw [hp.isNull]
    cases hn : parent.isNull with
    | true =>
      simp only [hn, if_true, length_declaring] at hm
      exact hm
    | false =>
      simp only [hn, Bool.false_eq_true, if_false, List.length_cons, length_declaring] at hm
      exact hm
  cases hn : parent.isNull with
  | true => exact (arrives_inClass s.inClass).bind fun _ _ => .pure hresult
  | false =>
    exact arrives_closeScope.bind fun _ _ => (arrives_inClass s.inClass).bind
      fun _ _ => .pure hresult

/-- The walks over statements, bodies, functions and classes come back to where they started. -/
theorem arrives_walks (room : Nat) :
    (∀ t here, Arrives (statement room t) here (here.declaring t.declarations)
      (Rewrites here.scopes.length t)) ∧
    (∀ t here, Arrives (body room t) here (here.declaring t.itemDeclarations)
      (Rewrites here.scopes.length t)) ∧
    (∀ kind t here, Arrives (routineRule room kind t) here here (Rewrites here.scopes.length t)) ∧
    ∀ name parent methods here, Arrives (classRule room name parent methods) here
      (here.declaring [name]) (Rewrites here.scopes.length (.classDecl name parent methods)) := by
  induction room with
  | zero =>
    refine ⟨fun t here => ?_, fun t here => ?_, fun kind t here => ?_,
      fun name parent methods here => ?_⟩
    · unfold statement
      exact .throw
    · unfold body
      exact .throw
    · unfold routineRule
      exact .throw
    · unfold classRule
      exact .throw
  | succ room ih =>
    obtain ⟨hstatement, hbody, hroutine, hclass⟩ := ih
    have hexpression := arrives_expression room
    refine ⟨fun t here => ?_, fun t here => ?_, fun kind t here => ?_,
      fun name parent methods here => ?_⟩
    · unfold statement
      cases t with
      | block statements =>
        refine (arrives_openScope .empty).bind fun _ _ => (hbody statements _).bind fun _ hs => ?_
        exact (arrives_closeDeclared here .empty _).bind fun _ _ =>
          .pure ⟨congrArg Tree.block hs.bare, hs.below⟩
      | varDecl name initializer =>
        refine (arrives_declare name false).bind fun _ _ => ?_
        refine ((hexpression initializer _).optional fun _ => rfl).bind fun _ he => ?_
        rw [length_bindName] at he
        exact (arrives_declare name true).bind fun _ _ =>
          .pure ⟨congrArg (Tree.varDecl name) he.bare, he.below⟩
      | funDecl name params statements =>
        have := hroutine .function (.funDecl name params statements) (here.declaring [name])
        rw [length_declaring] at this
        exact arrives_declareTwice name this
      | classDecl name parent methods => exact hclass name parent methods here
      | exprStmt =>
        exact (hexpression _ _).bind fun _ h => .pure ⟨congrArg Tree.exprStmt h.bare, h.below⟩
      | printStmt =>
        exact (hexpression _ _).bind fun _ h => .pure ⟨congrArg Tree.printStmt h.bare, h.below⟩
      | ifElse condition thenBranch elseBranch =>
        refine (hexpression _ _).bind fun _ hc => (hstatement thenBranch _).bind fun _ ht => ?_
        have helse := (hstatement elseBranch (here.declaring thenBranch.declarations)).optional
          fun hn => by rw [Tree.declarations_of_isNull hn]; rfl
        rw [← declaring_append, length_declaring] at helse
        refine helse.bind fun _ he => .pure ⟨?_, hc.below, ht.below, he.below⟩
        simp only [Tree.bare, hc.bare, ht.bare, he.bare]
      | whileLoop =>
        refine (hexpression _ _).bind fun _ hc => (hstatement _ _).bind fun _ hb => .pure ?_
        exact ⟨congrArg₂ Tree.whileLoop hc.bare hb.bare, hc.below, hb.below⟩
      | returnStmt keyword value =>
        refine (arrives_checkReturn _ _).bind fun _ _ => ?_
        refine ((hexpression value _).optional fun _ => rfl).bind fun _ hv => ?_
        exact .pure ⟨congrArg (Tree.returnStmt keyword) hv.bare, hv.below⟩
      | _ => exact .throw
    · unfold body
      refine arrives_eachOf Tree.declarations (fun u here => ?_) _ fun items hitems => ?_
      · exact (hstatement u here).optional fun hn => by rw [Tree.declarations_of_isNull hn]; rfl
      · rw [Tree.itemDeclarations, hitems]
    · unfold routineRule
      exact arrives_routine hbody kind t
    · unfold classRule
      exact arrives_classBody (fun u here => .lift fun _ _ => hroutine _ u here) room name parent
        methods

/-- What a statement of the right form leaves open. -/
theorem scopes_of_statement {room : Nat} (ht : WellFormed .statement t) {s s' : State} {t' : Tree}
    (h : statement room t s = .ok t' s') : s'.scopes = afterStatement s.scopes t := by
  have hscopes := ((arrives_walks room).1 t s.standing).scopes h
  rw [Tree.declarations_eq ht] at hscopes
  rw [hscopes]
  unfold afterStatement
  cases t.declared? <;> rfl

end Arrives

/-! ## Before and after -/

/-- The scope has got names or new marks, and has kept the names that it had. -/
structure Frame.Extends (frame frame' : Frame) : Prop where
  marks : ∃ marks : List (Name × Bool),
    frame' = marks.foldl (fun f mark => f.insert mark.1 mark.2) frame
  kept : ∀ name, frame.binds name = true → frame'.binds name = true

/-- Outside of the innermost scope nothing has changed, and the walk is in the same function and
class. -/
structure Balanced (s s' : State) : Prop where
  length : s'.scopes.length = s.scopes.length
  outer : s'.scopes.tail = s.scopes.tail
  innermost : ∀ frame ∈ s.scopes.head?, ∀ frame' ∈ s'.scopes.head?, Frame.Extends frame frame'
  inFunction : s'.inFunction = s.inFunction
  inClass : s'.inClass = s.inClass

theorem Frame.Extends.refl (frame : Frame) : Frame.Extends frame frame :=
  ⟨⟨[], rfl⟩, fun _ h => h⟩

theorem Frame.Extends.insert {frame frame' : Frame} (h : Frame.Extends frame frame') (key : Name)
    (ready : Bool) : Frame.Extends frame (frame'.insert key ready) := by
  obtain ⟨⟨marks, rfl⟩, hkept⟩ := h
  refine ⟨⟨marks ++ [(key, ready)], by rw [List.foldl_append]; rfl⟩, fun name hname => ?_⟩
  rw [Bindings.binds_insert, hkept name hname, Bool.or_true]

theorem extends_bindName {scopes scopes' : List Frame} {name : Tree} {ready : Bool}
    (h : ∀ frame ∈ scopes.head?, ∀ frame' ∈ scopes'.head?, Frame.Extends frame frame') :
    ∀ frame ∈ scopes.head?, ∀ frame' ∈ (bindName scopes' name ready).head?,
      Frame.Extends frame frame' := by
  unfold bindName
  split
  · rintro frame hframe _ ⟨⟩
    exact (h frame hframe _ rfl).insert _ _
  · exact h

/-- A declaration only adds to the innermost scope. -/
theorem extends_declaring (here : Standing) (names : List Tree) :
    ∀ frame ∈ here.scopes.head?, ∀ frame' ∈ (here.declaring names).scopes.head?,
      Frame.Extends frame frame' := by
  suffices h : ∀ scopes : List Frame,
      (∀ frame ∈ here.scopes.head?, ∀ frame' ∈ scopes.head?, Frame.Extends frame frame') →
      ∀ frame ∈ here.scopes.head?, ∀ frame' ∈ (names.foldl bindReady scopes).head?,
        Frame.Extends frame frame' by
    refine h here.scopes fun frame hframe frame' hframe' => ?_
    cases Option.mem_unique hframe hframe'
    exact .refl frame
  induction names with
  | nil => exact fun _ h => h
  | cons name names ih => exact fun scopes h => ih _ (extends_bindName (extends_bindName h))

/-- A walk that arrives is balanced. -/
theorem Arrives.balanced {x : Resolve Tree} {names : List Tree} {t' : Tree} {Q : Tree → Prop}
    (h : Arrives x s.standing (s.standing.declaring names) Q) (hx : x s = .ok t' s') :
    Balanced s s' ∧ Q t' := by
  obtain ⟨hs, hQ⟩ := (h s rfl).ok hx
  have hscopes : s'.scopes = (s.standing.declaring names).scopes := congrArg Standing.scopes hs
  refine ⟨⟨?_, ?_, ?_, congrArg Standing.inFunction hs, congrArg Standing.inClass hs⟩, hQ⟩
  · rw [hscopes]
    exact length_declaring _ _
  · rw [hscopes]
    exact tail_foldl tail_bindReady _ _
  · rw [hscopes]
    exact extends_declaring s.standing names

/-- Outside of all scopes each statement of a program leaves all scopes closed. -/
theorem closed_eachFrom (room : Nat) : ∀ (ts done : List Tree) {s s' : State} {out : List Tree},
    s.scopes = [] → eachFrom (optional (topLevel room)) done ts s = .ok out s' →
      s'.scopes = [] ∧ out.map Tree.bare = done.reverse.map Tree.bare ++ ts.map Tree.bare
  | [], done, s, s', out, hs, h => by
    cases h
    exact ⟨hs, (List.append_nil _).symm⟩
  | t :: ts, done, s, s', out, hs, h => by
    obtain ⟨t', s₁, hx, h⟩ := bind_eq_ok.1 h
    have hone : s₁.scopes = [] ∧ t'.bare = t.bare := by
      unfold optional at hx
      split at hx
      · cases hx
        exact ⟨hs, rfl⟩
      · unfold topLevel at hx
        split at hx
        · cases hx
          exact ⟨rfl, rfl⟩
        · obtain ⟨hbalanced, hbare⟩ := ((arrives_walks room).1 t s.standing).balanced hx
          have hlength := hbalanced.length
          rw [hs] at hlength
          exact ⟨List.eq_nil_of_length_eq_zero hlength, hbare.bare⟩
    obtain ⟨hs', hout⟩ := closed_eachFrom room ts (t' :: done) hone.1 h
    refine ⟨hs', ?_⟩
    rw [hout]
    simp [hone.2]

/-- The resolver is balanced and local, on any tree and from any state, whatever it reports on the
way. Where a walk gives a result, the scopes and the kinds of function and class are those before,
but for what a statement marks in the innermost scope, and the tree has got depths that fit and no
other change. So after a program no scope is open. -/
theorem resolver_balanced (room : Nat) :
    (∀ t s t' s', expression room t s = .ok t' s' →
      s'.scopes = s.scopes ∧ s'.inFunction = s.inFunction ∧ s'.inClass = s.inClass ∧
        Rewrites s.scopes.length t t') ∧
    (∀ t s t' s', statement room t s = .ok t' s' →
      Balanced s s' ∧ Rewrites s.scopes.length t t') ∧
    (∀ slot s slot' s', body room slot s = .ok slot' s' →
      Balanced s s' ∧ Rewrites s.scopes.length slot slot') ∧
    ∀ ts s trees s', s.scopes = [] → program room ts s = .ok trees s' →
      s'.scopes = [] ∧ trees.map Tree.bare = ts.map Tree.bare := by
  obtain ⟨hstatement, hbody, -, -⟩ := arrives_walks room
  refine ⟨fun t s t' s' h => ?_, fun t s t' s' h => ?_, fun slot s slot' s' h => ?_,
    fun ts s trees s' hs h => ?_⟩
  · obtain ⟨hs, hrewrites⟩ := (arrives_expression room t s.standing s rfl).ok h
    exact ⟨congrArg Standing.scopes hs, congrArg Standing.inFunction hs,
      congrArg Standing.inClass hs, hrewrites⟩
  · exact (hstatement t s.standing).balanced h
  · exact (hbody slot s.standing).balanced h
  · exact closed_eachFrom room ts [] hs h

/-- A branch that declares a name, and a class in the other one, after a problem was reported. -/
theorem resolver_balanced_branches :
    let word (text : String) : Tree := .token (.ofText .identifier text .nil 1)
    let s : State := { scopes := [.single (.ofText "a") false, .single (.ofText "x") true] }
    let t : Tree := .ifElse (.thisRef (word "this") none) (.varDecl (word "a") .null)
      (.classDecl (word "B") (.ident (word "A") none) (.list [.funDecl (word "m")
        (.list [word "p"]) (.list [.returnStmt (word "return") (.ident (word "x") none)])]))
    ∃ t' s', statement 8 t s = .ok t' s' ∧ s'.problems.size = 1 ∧
      t'.uses.map (·.depth) = [none, none, some 4] ∧ Balanced s s' ∧ Rewrites 2 t t' := by
  intro word s t
  exact ⟨_, _, rfl, rfl, rfl, (resolver_balanced 8).2.1 t s _ _ rfl⟩

end Resolver

end LoxLang
