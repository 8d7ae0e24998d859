import LoxLang.Proofs.Settlement

/-!
# The stack of the resolver

The resolver keeps its stack of open scopes to itself. To see the stack at a tree of a program, put
a probe there, which no walk has a rule for: the resolver stops right at the probe, with the scopes
that it has open (`stackAt`). In a program where nothing is reported the resolver comes to every
tree that is walked (`Comes`), and the stack there is the one of the context (`stackAt_eq`).
-/

namespace LoxLang

/-! ## Trees with a hole -/

variable {path : List Nat} {parent : Tree}

namespace Tree

/-- The tree with another one in a slot. -/
def setChild (w : Tree) : Tree → Nat → Tree
  | list items, i => list (items.set i w)
  | unary op _, 1 => unary op w
  | binary _ op r, 0 => binary w op r
  | binary l op _, 2 => binary l op w
  | logical _ op r, 0 => logical w op r
  | logical l op _, 2 => logical l op w
  | grouping _, 0 => grouping w
  | assign n _ d, 1 => assign n w d
  | call _ p as, 0 => call w p as
  | call c p _, 2 => call c p w
  | getField _ n, 0 => getField w n
  | setField _ n v, 0 => setField w n v
  | setField o n _, 2 => setField o n w
  | exprStmt _, 0 => exprStmt w
  | printStmt _, 0 => printStmt w
  | varDecl n _, 1 => varDecl n w
  | block _, 0 => block w
  | ifElse _ t e, 0 => ifElse w t e
  | ifElse c _ e, 1 => ifElse c w e
  | ifElse c t _, 2 => ifElse c t w
  | whileLoop _ b, 0 => whileLoop w b
  | whileLoop c _, 1 => whileLoop c w
  | funDecl n ps _, 2 => funDecl n ps w
  | returnStmt k _, 1 => returnStmt k w
  | classDecl n _ ms, 1 => classDecl n w ms
  | classDecl n s _, 2 => classDecl n s w
  | t, _ => t

/-- A tree that no walk has a rule for. -/
def probe : Tree := scalar (.bool true)

theorem isNull_setChild (w t : Tree) (i : Nat) : (setChild w t i).isNull = t.isNull := by
  unfold setChild
  split <;> rfl

/-- The tree with another one at the end of a path. -/
def put (root : Tree) : List Nat → Tree → Tree
  | [], w => w
  | i :: path, w => (root.at? path).elim root fun t => root.put path (setChild w t i)

theorem put_cons {root t : Tree} (h : root.at? path = some t) (i : Nat) (w : Tree) :
    root.put (i :: path) w = root.put path (setChild w t i) := by
  rw [put, h]
  rfl

end Tree

namespace Resolver

/-! ## Coming to a tree -/

/-- The walk over a tree in a role. -/
def walk : Role → Nat → Tree → Resolve Tree
  | .statement, room => statement room
  | .expression, room => expression room
  | .method, room => method (routineRule room)
  | .body, room => body room
  | .arguments, room => eachOf (expression room)
  | .members, room => eachOf (method (routineRule room))

/-- The walk meets a tree that it has no rule for, with the given scopes open. -/
def Stops {α : Type} (x : Resolve α) (s : State) (scopes : List Frame) : Prop :=
  ∃ f s', x s = .error (.fault f) s' ∧ s'.scopes = scopes

/-- What is put in place of a tree: a probe, or the same tree with something else in a slot. -/
def Replaces (u w : Tree) : Prop :=
  w = .probe ∨ ∃ w' i, w = Tree.setChild w' u i

/-- The walk over a tree with a hole comes to the hole, in the given role and with the given scopes
open. What stops the walk there stops it as a whole. With `u` in the hole the result has `u'`. -/
def Comes {β : Type} (x : Tree → Resolve β) (s : State) (role : Role) (u u' : Tree)
    (scopes : List Frame) : Prop :=
  ∃ room s' s'', walk role room u s' = .ok u' s'' ∧ s'.scopes = scopes ∧
    ∀ w T, Replaces u w → Stops (walk role room w) s' T → Stops (x w) s T

theorem Replaces.isNull_eq {u w : Tree} (h : Replaces u w) (hu : u.isNull = false) :
    w.isNull = false := by
  obtain rfl | ⟨w', i, rfl⟩ := h
  · rfl
  · rw [Tree.isNull_setChild, hu]

section Comes

variable {α β : Type} {s s' s₁ : State} {role : Role} {u u' : Tree} {S : List Frame} {room : Nat}
  {x : Tree → Resolve Tree} {name t t' v v' : Tree} {i : Nat} {role' : Role}

theorem Stops.first {x : Resolve α} (h : Stops x s S) (f : α → Resolve β) :
    Stops (x >>= f) s S := by
  obtain ⟨e, s', hx, hs⟩ := h
  exact ⟨e, s', bind_of_error hx, hs⟩

variable {a : α}

theorem Stops.after {x : Resolve α} {f : α → Resolve β} (hx : x s = .ok a s₁)
    (h : Stops (f a) s₁ S) :
    Stops (x >>= f) s S := by
  obtain ⟨e, s', hf, hs⟩ := h
  exact ⟨e, s', (bind_of_ok hx).trans hf, hs⟩

theorem Comes.here (h : walk role room u s = .ok u' s') :
    Comes (walk role room) s role u u' s.scopes :=
  ⟨room, s, s', h, rfl, fun _ _ _ h => h⟩

theorem Comes.first {x : Tree → Resolve α} {f : Tree → α → Resolve β} (h : Comes x s role u u' S) :
    Comes (fun w => x w >>= f w) s role u u' S := by
  obtain ⟨room, s', s'', hu, hs, hx⟩ := h
  exact ⟨room, s', s'', hu, hs, fun w T hw ht => (hx w T hw ht).first _⟩

theorem Comes.after {x : Resolve α} {f : α → Tree → Resolve β} (hx : x s = .ok a s₁)
    (h : Comes (f a) s₁ role u u' S) : Comes (fun w => x >>= fun a => f a w) s role u u' S := by
  obtain ⟨room, s', s'', hu, hs, hf⟩ := h
  exact ⟨room, s', s'', hu, hs, fun w T hw ht => .after hx (hf w T hw ht)⟩

theorem Comes.congr {x y : Tree → Resolve β} (hn : u.isNull = false)
    (hxy : ∀ w, w.isNull = false → x w = y w) (h : Comes x s role u u' S) :
    Comes y s role u u' S := by
  obtain ⟨room, s', s'', hu, hs, hx⟩ := h
  refine ⟨room, s', s'', hu, hs, fun w T hw ht => ?_⟩
  rw [← hxy w (hw.isNull_eq hn)]
  exact hx w T hw ht

theorem Comes.optional (h : Comes x s role u u' S) (hn : u.isNull = false) :
    Comes (optional x) s role u u' S := by
  obtain ⟨room, s', s'', hu, hs, hx⟩ := h
  refine ⟨room, s', s'', hu, hs, fun w T hw ht => ?_⟩
  unfold Resolver.optional
  rw [hw.isNull_eq hn]
  exact hx w T hw ht

/-- In a sequence the resolver comes to each item, with what the items before it leave. -/
theorem comes_eachFrom {after : List Frame → Tree → List Frame} :
    ∀ {items done out : List Tree} {s : State},
      (∀ t ∈ items, ∀ {s s' t'}, x t s = .ok t' s' → s'.scopes = after s.scopes t) →
      eachFrom x done items s = .ok out s₁ →
      ∃ more, out = done.reverse ++ more ∧ more.length = items.length ∧
        ∀ {i : Nat} {t' : Tree}, more[i]? = some t' →
          ∃ t s' s'', items[i]? = some t ∧ x t s' = .ok t' s'' ∧
          s'.scopes = (items.take i).foldl after s.scopes ∧
          ∀ w e s₂, x w s' = .error e s₂ → eachFrom x done (items.set i w) s = .error e s₂
  | [], done, out, s, _, h => by
    cases h
    exact ⟨[], by simp, rfl, by simp⟩
  | t :: items, done, out, s, hafter, h => by
    obtain ⟨ht, hrest⟩ := List.forall_mem_cons.1 hafter
    obtain ⟨t', s', hx, h⟩ := bind_eq_ok.1 h
    obtain ⟨more, rfl, hlength, hmore⟩ := comes_eachFrom hrest h
    refine ⟨t' :: more, by simp, congrArg (· + 1) hlength, fun {i u'} hu => ?_⟩
    cases i with
    | zero =>
      cases hu
      exact ⟨t, s, s', rfl, hx, rfl, fun w e s₂ he => bind_of_error he⟩
    | succ i =>
      obtain ⟨u, s₂, s₃, hi, hx', hs, hw⟩ := hmore hu
      refine ⟨u, s₂, s₃, hi, hx', ?_, fun w e s₄ he => (bind_of_ok hx).trans (hw w e s₄ he)⟩
      rw [hs, ht hx]
      rfl

/-- The same for a slot that holds a sequence. -/
theorem comes_eachOf (role : Role) (room : Nat) (after : List Frame → Tree → List Frame)
    {items : List Tree} (hx : ∀ w, w.isNull = false → x w = walk role room w)
    (hitems : ∀ t ∈ items, t.isNull = false)
    (hafter : ∀ t ∈ items, ∀ {s s' t'}, x t s = .ok t' s' → s'.scopes = after s.scopes t)
    (h : eachOf x (.list items) s = .ok v' s₁) :
    ∃ out, v' = .list out ∧ out.length = items.length ∧
      ∀ {i : Nat} {t' : Tree}, out[i]? = some t' → ∃ t, items[i]? = some t ∧
        Comes (fun w => eachOf x (.list (items.set i w))) s role t t'
          ((items.take i).foldl after s.scopes) := by
  obtain ⟨_, _, hitems', h⟩ := bind_eq_ok.1 h
  cases hitems'
  obtain ⟨out, s₂, hout, h⟩ := bind_eq_ok.1 h
  cases h
  obtain ⟨more, rfl, hlength, hmore⟩ := comes_eachFrom hafter hout
  refine ⟨_, rfl, hlength, fun {i t'} hi => ?_⟩
  obtain ⟨t, s', s'', ht, hok, hs, hw⟩ := hmore hi
  rw [hx t (hitems t (List.mem_of_getElem? ht))] at hok
  refine ⟨t, ht, room, s', s'', hok, hs, fun w T hr hstop => ?_⟩
  rw [← hx w (hr.isNull_eq (hitems t (List.mem_of_getElem? ht)))] at hstop
  obtain ⟨f, s₃, he, hT⟩ := hstop
  exact .after rfl (Stops.first ⟨f, s₃, hw w _ s₃ he, hT⟩ _)

/-- Below an expression the resolver comes to all that is walked. -/
theorem comes_expression (hv : WellFormed .expression v) (h : expression room v s = .ok v' s₁)
    (hr : Role.expression.inside v' i = some role') (hu : v'.children[i]? = some u') :
    ∃ u, v.children[i]? = some u ∧ Role.expression.inside v i = some role' ∧
      Comes (fun w => expression room (w.setChild v i)) s role' u u' s.scopes := by
  cases room with
  | zero => cases h
  | succ room =>
  cases hv.formed with
  | binary | logical | call =>
    obtain ⟨_, s₂, hl, h⟩ := bind_eq_ok.1 h
    obtain ⟨_, s₃, hr', h⟩ := bind_eq_ok.1 h
    cases h
    have hs : s₂.scopes = s.scopes := (arrives_expression room _ _).scopes hl
    match i, hr, hu with
    | 0, rfl, rfl => exact ⟨_, rfl, rfl, .first (.here hl)⟩
    | 2, rfl, rfl => exact ⟨_, rfl, rfl, hs ▸ .after hl (.first (.here hr'))⟩
  | literal =>
    cases h
    cases hr
  | ident | superRef =>
    obtain ⟨_, s₂, -, h⟩ := bind_eq_ok.1 h
    obtain ⟨_, s₃, -, h⟩ := bind_eq_ok.1 h
    cases h
    cases hr
  | assign =>
    obtain ⟨_, s₂, he, h⟩ := bind_eq_ok.1 h
    obtain ⟨_, s₃, -, h⟩ := bind_eq_ok.1 h
    cases h
    match i, hr, hu with
    | 1, rfl, rfl => exact ⟨_, rfl, rfl, .first (.here he)⟩
  | thisRef =>
    obtain ⟨_, _, hget, h⟩ := bind_eq_ok.1 h
    cases hget
    split at h <;>
    · obtain ⟨_, s₂, -, h⟩ := bind_eq_ok.1 h
      cases h
      cases hr
  | unary =>
    obtain ⟨_, s₂, he, h⟩ := bind_eq_ok.1 h
    cases h
    match i, hr, hu with
    | 1, rfl, rfl => exact ⟨_, rfl, rfl, .first (.here he)⟩
  | grouping | getField =>
    obtain ⟨_, s₂, he, h⟩ := bind_eq_ok.1 h
    cases h
    match i, hr, hu with
    | 0, rfl, rfl => exact ⟨_, rfl, rfl, .first (.here he)⟩
  | setField =>
    obtain ⟨_, s₂, hv, h⟩ := bind_eq_ok.1 h
    obtain ⟨_, s₃, ho, h⟩ := bind_eq_ok.1 h
    cases h
    have hs : s₂.scopes = s.scopes := (arrives_expression room _ _).scopes hv
    match i, hr, hu with
    | 0, rfl, rfl => exact ⟨_, rfl, rfl, hs ▸ .after hv (.first (.here ho))⟩
    | 2, rfl, rfl => exact ⟨_, rfl, rfl, .first (.here hv)⟩

/-- The resolver comes to the body of a function, with the parameters bound. -/
theorem comes_routine {kind : InFunction} {body : Tree} {params : List Tree}
    (h : routineRule room kind (.funDecl name (.list params) body) s = .ok v' s₁) :
    ∃ body', v' = .funDecl name (.list params) body' ∧
      Comes (fun w => routineRule room kind (.funDecl name (.list params) w)) s .body body body'
        (params.foldl bindReady (.empty :: s.scopes)) := by
  cases room with
  | zero =>
    unfold routineRule at h
    cases h
  | succ room =>
  unfold routineRule at h ⊢
  unfold routine within at h ⊢
  obtain ⟨_, _, hget, h⟩ := bind_eq_ok.1 h
  cases hget
  obtain ⟨_, _, hset, h⟩ := bind_eq_ok.1 h
  cases hset
  obtain ⟨t', s₂, hinner, h⟩ := bind_eq_ok.1 h
  obtain ⟨_, _, hset, h⟩ := bind_eq_ok.1 h
  cases hset
  cases h
  obtain ⟨_, _, hopen, h⟩ := bind_eq_ok.1 hinner
  cases hopen
  obtain ⟨_, _, hslots, h⟩ := bind_eq_ok.1 h
  cases hslots
  obtain ⟨_, _, hitems, h⟩ := bind_eq_ok.1 h
  cases hitems
  obtain ⟨_, s₃, hparams, h⟩ := bind_eq_ok.1 h
  obtain ⟨body', s₄, hbody, h⟩ := bind_eq_ok.1 h
  obtain ⟨_, _, hclose, h⟩ := bind_eq_ok.1 h
  cases hclose
  cases h
  have hs : s₃.scopes = params.foldl bindReady (.empty :: s.scopes) :=
    (arrives_declareAll params).scopes hparams
  have hinside : Comes (fun w => do
      declareAll params
      let statements ← Resolver.body room w
      closeScope
      return Tree.funDecl name (.list params) statements)
      { s with scopes := .empty :: s.scopes, inFunction := kind } .body body body' s₃.scopes :=
    .after hparams (.first (.here (show walk .body room body s₃ = _ from hbody)))
  exact ⟨body', rfl, hs ▸ .after rfl (.after rfl (.first (.after rfl hinside)))⟩

/-- Where a tree is walked, a probe stops the walk with the same scopes. -/
theorem stops_probe (h : walk role room u s = .ok u' s₁) :
    Stops (walk role room .probe) s S ↔ S = s.scopes := by
  have hstop : ∃ f, walk role room .probe s = .error (.fault f) s := by
    cases role with
    | statement =>
      cases room with
      | zero =>
        change statement 0 u s = _ at h
        unfold statement at h
        cases h
      | succ room => exact ⟨_, rfl⟩
    | expression =>
      cases room with
      | zero => cases h
      | succ room => exact ⟨_, rfl⟩
    | body =>
      cases room with
      | zero =>
        change body 0 u s = _ at h
        unfold body at h
        cases h
      | succ room => exact ⟨_, rfl⟩
    | method | arguments | members => exact ⟨_, rfl⟩
  obtain ⟨f, hf⟩ := hstop
  constructor
  · rintro ⟨f', s', h', rfl⟩
    cases hf.symm.trans h'
    rfl
  · rintro rfl
    exact ⟨f, s, hf, rfl⟩

theorem lift_eq_ok {r : Except Fault α} : lift r s = .ok a s' ↔ r = .ok a ∧ s' = s := by
  cases r with
  | ok b =>
    show EStateM.Result.ok b s = .ok a s' ↔ _
    simp [eq_comm]
  | error e => exact ⟨nofun, nofun⟩

/-- The resolver comes to the superclass of a class. -/
theorem comes_superclass {parent' : Tree} {depth : Option Nat}
    (h : superclass (expression room) name (.ident parent depth) s = .ok parent' s₁) :
    (∃ depth', parent' = .ident parent depth') ∧
      Comes (superclass (expression room) name) s .expression (.ident parent depth) parent'
        s.scopes := by
  -- A class that names itself as its superclass is reported, and walked all the same.
  let rest : Resolve Tree := do
    modify fun s => { s with inClass := .subclass }
    let parent' ← expression room (.ident parent depth)
    openScope superFrame
    return parent'
  have hrest : ∃ s₂ : State, s₂.scopes = s.scopes ∧ rest s₂ = .ok parent' s₁ := by
    obtain ⟨_, _, hparent, h₁⟩ := bind_eq_ok.1 h
    obtain ⟨_, _, hown, h₂⟩ := bind_eq_ok.1 h₁
    obtain ⟨-, rfl⟩ := lift_eq_ok.1 hparent
    obtain ⟨-, rfl⟩ := lift_eq_ok.1 hown
    split at h₂
    · obtain ⟨slot, _, hslot, h₃⟩ := bind_eq_ok.1 h₂
      obtain ⟨-, rfl⟩ := lift_eq_ok.1 hslot
      obtain ⟨_, s₂, hreport, h₄⟩ := bind_eq_ok.1 h₃
      exact ⟨s₂, (arrives_report slot _).scopes hreport, h₄⟩
    · exact ⟨_, rfl, h₂⟩
  obtain ⟨s₂, hs₂, h⟩ := hrest
  obtain ⟨_, _, hset, h⟩ := bind_eq_ok.1 h
  cases hset
  obtain ⟨e, s₃, he, h⟩ := bind_eq_ok.1 h
  obtain ⟨_, _, hopen, h⟩ := bind_eq_ok.1 h
  cases hopen
  cases h
  refine ⟨?_, room, _, s₃, he, hs₂, ?_⟩
  · cases room with
    | zero => cases he
    | succ room =>
      obtain ⟨_, _, -, he⟩ := bind_eq_ok.1 he
      obtain ⟨depth', _, -, he⟩ := bind_eq_ok.1 he
      cases he
      exact ⟨depth', rfl⟩
  · rintro w T (rfl | ⟨w', i, rfl⟩) hstop
    · have hprobe :
          walk .expression room (.ident parent depth) { s₂ with inClass := .subclass } = _ := he
      rw [(stops_probe hprobe).1 hstop]
      exact ⟨_, s, rfl, hs₂.symm⟩
    · obtain ⟨f, s₄, hw, -⟩ := hstop
      cases (show walk .expression room (.ident parent depth) _ = .ok _ _ from he).symm.trans hw

/-- The resolver comes to the superclass of a class and to its methods. -/
theorem comes_class {methods : Tree} (hv : Formed .statement (.classDecl name parent methods))
    (h : classRule room name parent methods s = .ok v' s₁) :
    ∃ parent' methods', v' = .classDecl name parent' methods' ∧ parent'.isNull = parent.isNull ∧
      (parent.isNull = false → Comes (fun w => classRule room name w methods) s
        .expression parent parent' (bindReady s.scopes name)) ∧
      Comes (fun w => classRule room name parent w) s .members methods methods'
        (aroundMethods (bindReady s.scopes name) parent) := by
  cases room with
  | zero =>
    unfold classRule at h
    cases h
  | succ room =>
  unfold classRule at h ⊢
  unfold classBody at h ⊢
  obtain ⟨_, _, hget, h⟩ := bind_eq_ok.1 h
  cases hget
  obtain ⟨_, _, hset, h⟩ := bind_eq_ok.1 h
  cases hset
  obtain ⟨_, s₂, hname, h⟩ := bind_eq_ok.1 h
  obtain ⟨_, s₃, hname', h⟩ := bind_eq_ok.1 h
  obtain ⟨parent', s₄, hparent, h⟩ := bind_eq_ok.1 h
  obtain ⟨_, _, hopen, h⟩ := bind_eq_ok.1 h
  cases hopen
  obtain ⟨methods', s₅, hmethods, h⟩ := bind_eq_ok.1 h
  obtain ⟨_, _, hclose, h⟩ := bind_eq_ok.1 h
  cases hclose
  have hs₂ := (arrives_declare name false).scopes hname
  have hs₃ : s₃.scopes = bindReady s.scopes name :=
    ((arrives_declare name true).scopes hname').trans (congrArg (bindName · name true) hs₂)
  have hs₄ : s₄.scopes = if parent.isNull then s₃.scopes else superFrame :: s₃.scopes :=
    (arrives_superclass room name parent).scopes hparent
  have haround : thisFrame :: s₄.scopes = aroundMethods (bindReady s.scopes name) parent := by
    rw [hs₄, hs₃]
    rfl
  refine ⟨parent', methods', ?_, ?_, fun hn => ?_, ?_⟩
  · cases hn : parent.isNull with
    | true =>
      rw [hn] at h
      cases h
      rfl
    | false =>
      rw [hn] at h
      cases h
      rfl
  · cases hv with
    | rootClass =>
      cases hparent
      rfl
    | subclass =>
      obtain ⟨⟨_, rfl⟩, -⟩ := comes_superclass hparent
      rfl
  · refine .after rfl (.after rfl (.after hname (.after hname' (.first ?_))))
    rw [← hs₃]
    cases hv with
    | rootClass => cases hn
    | subclass => exact (comes_superclass hparent).2
  · rw [← haround]
    have hhere : walk .members room methods { s₄ with scopes := thisFrame :: s₄.scopes } = _ :=
      hmethods
    refine .after rfl (.after rfl (.after hname (.after hname' (.after hparent ?_))))
    exact .after rfl (.first (.here hhere))

/-- A slot that holds something afterwards has held something before, and the resolver has come
there. -/
theorem comes_optional (role : Role) (room : Nat) (h : optional (walk role room) t s = .ok t' s')
    (hn : t'.isNull = false) :
    t.isNull = false ∧ Comes (optional (walk role room)) s role t t' s.scopes := by
  unfold optional at h
  split at h
  · next ht =>
    cases h
    simp [ht] at hn
  · next ht =>
    have ht : t.isNull = false := by simpa using ht
    exact ⟨ht, (Comes.here h).optional ht⟩

theorem optional_eq_some (h : role.optional t = some role') : t.isNull = false ∧ role' = role := by
  unfold Role.optional at h
  split at h
  · cases h
  · next hn => exact ⟨by simpa using hn, (Option.some.inj h).symm⟩

/-- Below a statement the resolver comes to all that is walked. -/
theorem comes_statement (hv : WellFormed .statement v) (h : statement room v s = .ok v' s₁)
    (hr : Role.statement.inside v' i = some role') (hu : v'.children[i]? = some u') :
    ∃ u, v.children[i]? = some u ∧ Role.statement.inside v i = some role' ∧
      Comes (fun w => statement room (w.setChild v i)) s role' u u'
        (scopesInside s.scopes .statement v' i) := by
  cases room with
  | zero =>
    unfold statement at h
    cases h
  | succ room =>
  unfold statement at h
  cases hv.formed with
  | exprStmt | printStmt =>
    obtain ⟨_, s₂, he, h⟩ := bind_eq_ok.1 h
    cases h
    rcases i with _ | i <;> cases hr
    cases hu
    exact ⟨_, rfl, rfl, .first (.here he)⟩
  | @varDecl name initializer =>
    obtain ⟨_, s₂, hname, h⟩ := bind_eq_ok.1 h
    obtain ⟨_, s₃, he, h⟩ := bind_eq_ok.1 h
    obtain ⟨_, s₄, -, h⟩ := bind_eq_ok.1 h
    cases h
    have hs := (arrives_declare name false).scopes hname
    rcases i with _ | _ | i
    · cases hr
    · cases hu
      obtain ⟨hn, rfl⟩ := optional_eq_some hr
      obtain ⟨hn, hcomes⟩ := comes_optional .expression room he hn
      rw [hs] at hcomes
      exact ⟨_, rfl, by simp [Role.inside, Role.optional, hn], .after hname (.first hcomes)⟩
    · cases hr
  | block =>
    obtain ⟨_, _, hopen, h⟩ := bind_eq_ok.1 h
    cases hopen
    obtain ⟨_, s₂, hb, h⟩ := bind_eq_ok.1 h
    obtain ⟨_, _, -, h⟩ := bind_eq_ok.1 h
    cases h
    have hhere : walk .body room _ { s with scopes := .empty :: s.scopes } = _ := hb
    rcases i with _ | i <;> cases hr
    cases hu
    exact ⟨_, rfl, rfl, .after rfl (.first (.here hhere))⟩
  | @ifElse _ thenBranch elseBranch hthen =>
    obtain ⟨_, s₂, hc, h⟩ := bind_eq_ok.1 h
    obtain ⟨_, s₃, ht, h⟩ := bind_eq_ok.1 h
    obtain ⟨_, s₄, he, h⟩ := bind_eq_ok.1 h
    cases h
    have hs₂ : s₂.scopes = s.scopes := (arrives_expression room _ _).scopes hc
    have hs₃ : s₃.scopes = s.scopes := by
      have := scopes_of_statement (hv.child 1 rfl rfl) ht
      rwa [afterStatement_of_none hthen, hs₂] at this
    rcases i with _ | _ | _ | i <;> cases hu
    · cases hr
      exact ⟨_, rfl, rfl, .first (.here hc)⟩
    · cases hr
      exact ⟨_, rfl, rfl, hs₂ ▸ .after hc (.first (.here ht))⟩
    · obtain ⟨hn, rfl⟩ := optional_eq_some hr
      obtain ⟨hn, hcomes⟩ := comes_optional .statement room he hn
      rw [hs₃] at hcomes
      refine ⟨_, rfl, by simp [Role.inside, Role.optional, hn], ?_⟩
      exact .after hc (.after ht (.first hcomes))
  | whileLoop =>
    obtain ⟨_, s₂, hc, h⟩ := bind_eq_ok.1 h
    obtain ⟨_, s₃, hb, h⟩ := bind_eq_ok.1 h
    cases h
    have hs : s₂.scopes = s.scopes := (arrives_expression room _ _).scopes hc
    rcases i with _ | _ | i <;> cases hr <;> cases hu
    · exact ⟨_, rfl, rfl, .first (.here hc)⟩
    · exact ⟨_, rfl, rfl, hs ▸ .after hc (.first (.here hb))⟩
  | @funDecl name body params =>
    obtain ⟨_, s₂, hname, h⟩ := bind_eq_ok.1 h
    obtain ⟨_, s₃, hname', h⟩ := bind_eq_ok.1 h
    obtain ⟨body', rfl, hbody⟩ := comes_routine h
    have hs : s₃.scopes = bindReady s.scopes name :=
      ((arrives_declare name true).scopes hname').trans
        (congrArg (bindName · name true) ((arrives_declare name false).scopes hname))
    rw [hs] at hbody
    rcases i with _ | _ | _ | i <;> cases hr
    cases hu
    exact ⟨_, rfl, rfl, .after hname (.after hname' hbody)⟩
  | @returnStmt keyword value =>
    obtain ⟨_, s₂, hreturn, h⟩ := bind_eq_ok.1 h
    obtain ⟨value', s₃, he, h⟩ := bind_eq_ok.1 h
    cases h
    have hs : s₂.scopes = s.scopes := (arrives_checkReturn _ _).scopes hreturn
    rcases i with _ | _ | i
    · cases hr
    · cases hu
      obtain ⟨hn, rfl⟩ := optional_eq_some hr
      obtain ⟨hn, hcomes⟩ := comes_optional .expression room he hn
      rw [hs] at hcomes
      have hall : Comes (fun w => do
          checkReturn (.token keyword) value
          let v ← optional (expression room) w
          return Tree.returnStmt (.token keyword) v) s .expression value u' s.scopes :=
        .after hreturn (.first hcomes)
      refine ⟨_, rfl, by simp [Role.inside, Role.optional, hn], hall.congr hn fun w hw => ?_⟩
      show _ = (checkReturn (.token keyword) w >>= _)
      unfold checkReturn
      rw [hn, hw]
    · cases hr
  | rootClass | subclass =>
    obtain ⟨parent', methods', rfl, hn, hparent, hmethods⟩ := comes_class hv.formed h
    rcases i with _ | _ | _ | i
    · cases hr
    · cases hu
      obtain ⟨hn', rfl⟩ := optional_eq_some hr
      rw [hn] at hn'
      exact ⟨_, rfl, by simp [Role.inside, Role.optional, hn'], hparent hn'⟩
    · cases hr
      cases hu
      refine ⟨_, rfl, rfl, ?_⟩
      show Comes _ _ _ _ _ (aroundMethods (bindReady s.scopes _) parent')
      unfold aroundMethods at hmethods ⊢
      rw [hn]
      exact hmethods
    · cases hr

/-- The resolver comes to the statements of a body. -/
theorem comes_body {items : List Tree} (hv : WellFormed .body (.list items))
    (h : body room (.list items) s = .ok v' s₁) :
    ∃ out, v' = .list out ∧ ∀ {i : Nat} {t' : Tree}, out[i]? = some t' →
      ∃ t, items[i]? = some t ∧ Comes (fun w => body room (.list (items.set i w))) s .statement t t'
        ((out.take i).foldl afterStatement s.scopes) := by
  cases room with
  | zero =>
    unfold body at h
    cases h
  | succ room =>
  unfold body at h ⊢
  have hitems : ∀ t ∈ items, WellFormed .statement t := hv.items fun _ => rfl
  have hnull : ∀ t ∈ items, t.isNull = false := fun t ht => (hitems t ht).formed.isNull_eq
  have hoptional (w : Tree) (hn : w.isNull = false) :
      optional (statement room) w = walk .statement room w := by
    unfold optional
    rw [hn]
    rfl
  have hafter : ∀ t ∈ items, ∀ {s s' t'}, optional (statement room) t s = .ok t' s' →
      s'.scopes = afterStatement s.scopes t := by
    intro t ht s s' t' hx
    rw [hoptional t (hnull t ht)] at hx
    exact scopes_of_statement (hitems t ht) hx
  obtain ⟨out, rfl, hlength, hout⟩ :=
    comes_eachOf .statement room afterStatement hoptional hnull hafter h
  -- Resolving a statement does not change what it declares.
  have hdeclared : out.map Tree.declared? = items.map Tree.declared? := by
    refine List.ext_getElem (by simp [hlength]) fun j hj _ => ?_
    rw [List.length_map] at hj
    obtain ⟨t, ht, room', s', s'', hok, -⟩ := hout (List.getElem?_eq_getElem hj)
    obtain ⟨_, rfl⟩ := List.getElem?_eq_some_iff.1 ht
    rw [List.getElem_map, List.getElem_map]
    exact (((arrives_walks room').1 _ _ s' rfl).ok hok).2.declared?
  refine ⟨out, rfl, fun {i t'} ht' => ?_⟩
  obtain ⟨t, ht, hcomes⟩ := hout ht'
  refine ⟨t, ht, ?_⟩
  have htake : (out.take i).map Tree.declared? = (items.take i).map Tree.declared? := by
    rw [List.map_take, hdeclared, List.map_take]
  rw [foldl_afterStatement_congr _ htake]
  exact hcomes

/-- Below a tree the resolver comes to all that is walked. -/
theorem comes_child (hv : WellFormed role v) (h : walk role room v s = .ok v' s₁)
    (hr : role.inside v' i = some role') (hu : v'.children[i]? = some u') :
    ∃ u, v.children[i]? = some u ∧ role.inside v i = some role' ∧
      Comes (fun w => walk role room (w.setChild v i)) s role' u u'
        (scopesInside s.scopes role v' i) := by
  cases role with
  | statement => exact comes_statement hv h hr hu
  | expression => exact comes_expression hv h hr hu
  | method =>
    cases hv.formed with
    | method =>
      obtain ⟨_, _, hname, hroutine⟩ := bind_eq_ok.1 h
      obtain ⟨-, rfl⟩ := lift_eq_ok.1 hname
      obtain ⟨body', rfl, hbody⟩ := comes_routine hroutine
      match i, hr, hu with
      | 2, rfl, rfl => exact ⟨_, rfl, rfl, .after hname hbody⟩
  | body =>
    cases hv.formed with
    | @body items =>
      obtain ⟨out, rfl, hout⟩ := comes_body hv h
      obtain ⟨u, hu, hcomes⟩ := hout hu
      cases hr
      exact ⟨u, hu, rfl, hcomes⟩
  | arguments =>
    cases hv.formed with
    | @arguments items =>
      have hitems : ∀ t ∈ items, WellFormed .expression t := hv.items fun _ => rfl
      obtain ⟨out, rfl, -, hout⟩ := comes_eachOf .expression room (fun S _ => S) (fun _ _ => rfl)
        (fun t ht => (hitems t ht).formed.isNull_eq)
        (fun t _ => (arrives_expression room t _).scopes) h
      obtain ⟨u, hu, hcomes⟩ := hout hu
      rw [List.foldl_fixed] at hcomes
      cases hr
      exact ⟨u, hu, rfl, hcomes⟩
  | members =>
    cases hv.formed with
    | @members items =>
      have hitems : ∀ t ∈ items, WellFormed .method t := hv.items fun _ => rfl
      obtain ⟨out, rfl, -, hout⟩ := comes_eachOf .method room (fun S _ => S) (fun _ _ => rfl)
        (fun t ht => (hitems t ht).formed.isNull_eq)
        (fun t _ => (Arrives.lift fun _ _ => (arrives_walks room).2.2.1 _ t _).scopes) h
      obtain ⟨u, hu, hcomes⟩ := hout hu
      rw [List.foldl_fixed] at hcomes
      cases hr
      exact ⟨u, hu, rfl, hcomes⟩

/-! ## Programs -/

/-- Where nothing is reported, a statement of the program was walked to its end. -/
theorem topLevel_eq_ok (h : topLevel room t s = .ok t' s') (hp : s'.problems = #[]) :
    statement room t s = .ok t' s' := by
  unfold topLevel at h
  split at h
  · cases h
    simp at hp
  · exact h

theorem Comes.topLevel (h : statement room t s = .ok t' s') :
    Comes (topLevel room) s .statement t t' s.scopes := by
  refine ⟨room, s, s', h, rfl, fun w T _ hstop => ?_⟩
  obtain ⟨f, s₂, hw, hT⟩ := hstop
  change statement room w s = _ at hw
  refine ⟨f, s₂, ?_, hT⟩
  unfold Resolver.topLevel
  rw [hw]

/-- In a program where nothing is reported the resolver comes to each statement, outside of all
scopes. -/
theorem comes_program : ∀ {items done out : List Tree} {s : State},
    (∀ t ∈ items, WellFormed .statement t) → (∀ t ∈ items, ReportsEntry t) →
    s.standing = .outside →
    eachFrom (Resolver.optional (topLevel room)) done items s = .ok out s₁ → s₁.problems = #[] →
    s.problems = #[] ∧ ∃ more, out = done.reverse ++ more ∧
      ∀ {i : Nat} {t' : Tree}, more[i]? = some t' → ∃ t, items[i]? = some t ∧
        Comes (fun w => eachFrom (Resolver.optional (topLevel room)) done (items.set i w)) s
          .statement t t' []
  | [], done, out, s, _, _, _, h, hp => by
    cases h
    exact ⟨hp, [], by simp, by simp⟩
  | t :: items, done, out, s, hitems, hentries, hs, h, hp => by
    obtain ⟨ht, hrest⟩ := List.forall_mem_cons.1 hitems
    obtain ⟨hentry, hmore⟩ := List.forall_mem_cons.1 hentries
    obtain ⟨t', s', hx, h⟩ := bind_eq_ok.1 h
    obtain ⟨hs', hback⟩ := hentry.topLevel hs hx
    obtain ⟨hp', more, rfl, hmore⟩ := comes_program hrest hmore hs' h hp
    refine ⟨hback hp', t' :: more, by simp, fun {i u'} hu => ?_⟩
    cases i with
    | zero =>
      cases hu
      unfold Resolver.optional at hx
      rw [ht.formed.isNull_eq] at hx
      have hcomes := (Comes.topLevel (topLevel_eq_ok hx hp')).optional ht.formed.isNull_eq
      rw [show s.scopes = [] from congrArg Standing.scopes hs] at hcomes
      exact ⟨t, rfl, .first hcomes⟩
    | succ i =>
      obtain ⟨u, hi, hcomes⟩ := hmore hu
      exact ⟨u, hi, .after hx hcomes⟩

end Comes

end Resolver

/-! ## The stack at a tree -/

open Resolver

/-- The items of a list. Another tree has none. -/
def Tree.items : Tree → List Tree
  | list items => items
  | _ => []

/-- The scopes that the resolver has open when it comes to the end of a path through a program. -/
def stackAt (program : List Tree) (path : List Nat) : Option (List Frame) :=
  match Resolver.program Tree.maxDepth ((Tree.list program).put path .probe).items {} with
  | .error (.fault _) s => some s.scopes
  | _ => none

section Paths

variable {program resolved : List Tree} (hform : ∀ t ∈ program, WellFormed .statement t)
  (hentries : ∀ t ∈ program, ReportsEntry t) {s : State}
  (h : Resolver.program Tree.maxDepth program {} = .ok resolved s) (hp : s.problems = #[])
include hform hentries h hp

/-- In a program where nothing is reported, the resolver comes to every tree that is walked, with
the scopes of its context. -/
theorem comes_at :
    ∀ {path : List Nat} {v' : Tree} {c : Context}, path ≠ [] →
      (Tree.list resolved).at? path = some v' → contextAt (.list resolved) path = some c →
      ∃ v, (Tree.list program).at? path = some v ∧ WellFormed c.role v ∧
        Comes (fun w => Resolver.program Tree.maxDepth ((Tree.list program).put path w).items) {}
          c.role v v' c.scopes
  | [], _, _, hne, _, _ => absurd rfl hne
  | [i], v', c, _, hv, hc => by
    obtain ⟨-, more, rfl, hmore⟩ := comes_program hform hentries rfl h hp
    obtain ⟨v, hv, hcomes⟩ := hmore hv
    obtain rfl : ⟨.statement, []⟩ = c := by
      rw [← foldl_afterStatement_nil (resolved.take i)]
      exact Option.some.inj hc
    exact ⟨v, hv, hform v (List.mem_of_getElem? hv), hcomes⟩
  | i :: j :: path, u', c', _, hu, hc => by
    obtain ⟨v', hv', hi⟩ := Option.bind_eq_some_iff.1 hu
    rw [contextAt, hv', Option.bind_some] at hc
    obtain ⟨c, hcv, hci⟩ := Option.bind_eq_some_iff.1 hc
    obtain ⟨v, hv, hform', room, s₁, s₂, hok, hs, hstop⟩ :=
      comes_at (List.cons_ne_nil j path) hv' hcv
    obtain ⟨role', hr, rfl⟩ := Option.map_eq_some_iff.1 hci
    obtain ⟨u, hu, hr', room', s₃, s₄, hok', hs', hstop'⟩ := comes_child hform' hok hr hi
    refine ⟨u, ?_, hform'.child i hr' hu, room', s₃, s₄, hok', hs ▸ hs', fun w T hw ht => ?_⟩
    · show ((Tree.list program).at? (j :: path)).bind _ = _
      rw [hv]
      exact hu
    · dsimp only
      rw [Tree.put_cons hv]
      exact hstop _ T (.inr ⟨w, i, rfl⟩) (hstop' w T hw ht)

theorem stackAt_eq {v : Tree} {c : Context} (hne : path ≠ [])
    (hv : (Tree.list resolved).at? path = some v) (hc : contextAt (.list resolved) path = some c) :
    stackAt program path = some c.scopes := by
  obtain ⟨v', -, -, room, s₁, s₂, hok, hs, hstop⟩ := comes_at hform hentries h hp hne hv hc
  obtain ⟨f, s₃, hx, hs'⟩ := hstop .probe c.scopes (.inl rfl) ((stops_probe hok).2 hs.symm)
  dsimp only at hx
  unfold stackAt
  rw [hx, ← hs']

end Paths

end LoxLang
