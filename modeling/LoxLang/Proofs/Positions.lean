import Mathlib.Data.List.Forall2
import LoxLang.Proofs.Resolution

/-!
# Positions

A position names a tree of a program by the way down to it. `Tree.at?` goes there, `contextAt` gives
the scopes that are open there, and `sitesAt` says for each of these scopes which tree opens it: a
block, a function, or a class, which opens one scope for `this` and, with a superclass, one for
`super` around it.
-/

namespace LoxLang

/-- A place in a session: the number of a program, and the way down to a tree of it, the last step
first. -/
structure Position where
  program : Nat
  path : List Nat
deriving DecidableEq, Repr, Inhabited

namespace Position

/-- The position of the tree in a slot. -/
def below (p : Position) (i : Nat) : Position :=
  ⟨p.program, i :: p.path⟩

/-- The position of the class that a method is declared in. -/
def classOfMethod (p : Position) : Position :=
  ⟨p.program, p.path.drop 2⟩

end Position

/-- The tree at the end of a path. -/
def Tree.at? (root : Tree) : List Nat → Option Tree
  | [] => some root
  | i :: path => (root.at? path).bind fun t => t.children[i]?

/-- The context at the end of a path through a program. -/
def contextAt (root : Tree) : List Nat → Option Context
  | [] => some ⟨.body, []⟩
  | i :: path => (root.at? path).bind fun t => (contextAt root path).bind fun c => c.inside t i

/-! ## Sites -/

/-- What a scope is opened for. -/
inductive Opening where
  | block
  | function
  /-- The scope that binds `this`. -/
  | receiver
  /-- The scope that binds `super`. -/
  | parent
deriving DecidableEq, Repr

/-- The scope binds nothing but `this` or `super`. -/
def Opening.isHidden : Opening → Bool
  | receiver | parent => true
  | block | function => false

/-- A place where a scope is opened. -/
structure Site where
  opening : Opening
  position : Position
deriving DecidableEq, Repr

/-- The scopes that a tree opens around what is in one of its slots, the innermost one first. -/
def Tree.opens : Tree → Nat → List Opening
  | block _, 0 => [.block]
  | funDecl .., 2 => [.function]
  | classDecl _ parent _, 2 => if parent.isNull then [.receiver] else [.receiver, .parent]
  | _, _ => []

/-- A declaration of a class. -/
def Tree.isClass : Tree → Bool
  | classDecl .. => true
  | _ => false

/-- The sites of the scopes around the end of a path, the innermost one first. -/
def sitesAt (root : Tree) (program : Nat) : List Nat → List Site
  | [] => []
  | i :: path =>
    ((root.at? path).elim [] fun t => (t.opens i).map (⟨·, program, path⟩)) ++
      sitesAt root program path

open Resolver

/-! ## Trees of a session -/

/-- The tree stands at the position in the context. -/
def Located (roots : List Tree) (p : Position) (t : Tree) (c : Context) : Prop :=
  ∃ root, roots[p.program]? = some root ∧ root.at? p.path = some t ∧
    contextAt root p.path = some c

/-- The sites of the scopes around a position. -/
def sitesOf (roots : List Tree) (p : Position) : List Site :=
  (roots[p.program]?).elim [] fun root => sitesAt root p.program p.path

/-- The uses of all programs are settled. -/
def AllFine (roots : List Tree) : Prop :=
  ∀ root ∈ roots, Everywhere Fine ⟨.body, []⟩ root

variable {roots : List Tree} {p : Position} {t u : Tree} {c c' : Context}

/-- What stands below a located tree is located. -/
theorem Located.child (h : Located roots p t c) (i : Nat) (hc : c.inside t i = some c')
    (hu : t.children[i]? = some u) : Located roots (p.below i) u c' := by
  obtain ⟨root, hroot, ht, hctx⟩ := h
  refine ⟨root, hroot, ?_, ?_⟩
  · show (root.at? p.path).bind _ = _
    rw [ht]
    exact hu
  · show (root.at? p.path).bind _ = _
    rw [ht, hctx]
    exact hc

/-- What holds everywhere holds at each place that is walked. -/
theorem everywhere_at {P : Context → Tree → Prop} {root : Tree}
    (h : Everywhere P ⟨.body, []⟩ root) : ∀ {path : List Nat} {t : Tree} {c : Context},
      root.at? path = some t → contextAt root path = some c → Everywhere P c t
  | [], t, c, ht, hc => by
    cases ht
    cases hc
    exact h
  | i :: path, t, c, ht, hc => by
    obtain ⟨u, hu, hi⟩ := Option.bind_eq_some_iff.1 ht
    rw [contextAt, hu, Option.bind_some] at hc
    obtain ⟨d, hd, hdi⟩ := Option.bind_eq_some_iff.1 hc
    exact (everywhere_at h hu hd).child i hdi hi

theorem Located.everywhere (h : Located roots p t c) (hroots : AllFine roots) :
    Everywhere Fine c t := by
  obtain ⟨root, hroot, ht, hc⟩ := h
  exact everywhere_at (hroots root (List.mem_of_getElem? hroot)) ht hc

theorem Located.append (h : Located roots p t c) (more : List Tree) :
    Located (roots ++ more) p t c := by
  obtain ⟨root, hroot, ht, hc⟩ := h
  refine ⟨root, ?_, ht, hc⟩
  rw [List.getElem?_append_left (List.getElem?_eq_some_iff.1 hroot).1]
  exact hroot

theorem Located.sitesOf_append (h : Located roots p t c) (more : List Tree) :
    sitesOf (roots ++ more) p = sitesOf roots p := by
  obtain ⟨root, hroot, -, -⟩ := h
  unfold sitesOf
  rw [List.getElem?_append_left (List.getElem?_eq_some_iff.1 hroot).1]

theorem Located.sitesOf_below (h : Located roots p t c) (i : Nat) :
    sitesOf roots (p.below i) = (t.opens i).map (⟨·, p⟩) ++ sitesOf roots p := by
  obtain ⟨root, hroot, ht, -⟩ := h
  have hroot' : roots[(p.below i).program]? = some root := hroot
  unfold sitesOf
  rw [hroot, hroot']
  show sitesAt root p.program (i :: p.path) = _
  rw [sitesAt, ht]
  rfl

/-! ## Hidden scopes -/

/-- The scope binds no keyword. -/
def Frame.Plain (frame : Frame) : Prop :=
  ∀ word, Token.Kind.ofWord word ≠ .identifier → frame.binds (.ofText word) = false

/-- What the resolver has open for a site: the scopes of a class bind only `this` or `super`, and
the others bind neither. -/
def Site.Fits (site : Site) (frame : Frame) : Prop :=
  match site.opening with
  | .receiver => frame = thisFrame
  | .parent => frame = superFrame
  | _ => Frame.Plain frame

/-- The innermost scope can get more names. -/
def Growing (sites : List Site) : Prop :=
  ∀ site ∈ sites.head?, site.opening.isHidden = false

section Fits

variable {sites : List Site} {S : List Frame} {t : Tree} {c : Context} {p : Position} {d : Nat}

theorem plain_empty : Frame.Plain .empty :=
  fun _ _ => rfl

theorem Frame.Plain.insert {frame : Frame} (h : Frame.Plain frame) {s : String}
    (hs : Token.Kind.ofWord s = .identifier) (ready : Bool) :
    Frame.Plain (Bindings.insert frame (.ofText s) ready) := by
  intro word hw
  rw [Bindings.binds_insert, ofText_beq_keyword hs word hw, Bool.false_or, h word hw]

/-- A declared name does not change what the scopes fit. -/
theorem fits_bindName (h : List.Forall₂ Site.Fits sites S) (hg : Growing sites) {name : Tree}
    (hname : name.IsName) (ready : Bool) :
    List.Forall₂ Site.Fits sites (bindName S name ready) := by
  obtain ⟨s, hs, hw⟩ := hname.exists_key
  cases h with
  | nil => exact .nil
  | @cons site _ _ _ hfits h =>
    simp only [bindName, hs]
    refine .cons ?_ h
    obtain ⟨opening, position⟩ := site
    cases opening with
    | block | function => exact Frame.Plain.insert hfits hw ready
    | receiver | parent => cases hg _ rfl

theorem fits_bindReady (h : List.Forall₂ Site.Fits sites S) (hg : Growing sites) {name : Tree}
    (hname : name.IsName) : List.Forall₂ Site.Fits sites (bindReady S name) :=
  fits_bindName (fits_bindName h hg hname false) hg hname true

theorem fits_afterStatement (hg : Growing sites) (ht : Formed .statement t)
    (h : List.Forall₂ Site.Fits sites S) : List.Forall₂ Site.Fits sites (afterStatement S t) := by
  unfold afterStatement
  split
  · next hd => exact fits_bindReady h hg (ht.isName_declared hd)
  · exact h

/-- A function opens a scope for its parameters. -/
theorem fits_routine (h : List.Forall₂ Site.Fits sites S) (p : Position) {params : List Tree}
    (hparams : ∀ param ∈ params, param.IsName) :
    List.Forall₂ Site.Fits (⟨.function, p⟩ :: sites) (params.foldl bindReady (.empty :: S)) := by
  refine List.foldlRecOn params _ (.cons plain_empty h) fun S' h param hp =>
    fits_bindReady h ?_ (hparams param hp)
  rintro _ ⟨⟩
  rfl

/-- Right inside the scope of an object is that of a method, which stands in the class of the
object. -/
def Nested (sites : List Site) : Prop :=
  ∀ (k : Nat) (p : Position), sites[k]? = some ⟨.receiver, p⟩ →
    ∃ l j, k = l + 1 ∧ sites[l]? = some ⟨.function, (p.below 2).below j⟩

theorem Nested.cons {opening : Opening} {q : Position} (h : Nested sites)
    (ho : opening ≠ .receiver) : Nested (⟨opening, q⟩ :: sites) := by
  intro k p hk
  cases k with
  | zero =>
    cases hk
    exact absurd rfl ho
  | succ k =>
    obtain ⟨l, j, rfl, hl⟩ := h k p hk
    exact ⟨l + 1, j, rfl, hl⟩

/-- The scopes around the methods of a class, but for that of the object, are nested. -/
def Nested.In (role : Role) (p : Position) (sites : List Site) : Prop :=
  match role with
  | .members => ∃ cls rest, p = cls.below 2 ∧ sites = ⟨.receiver, cls⟩ :: rest ∧ Nested rest
  | .method => ∃ cls j rest, p = (cls.below 2).below j ∧ sites = ⟨.receiver, cls⟩ :: rest ∧
      Nested rest
  | _ => Nested sites

/-- The open scopes fit their sites, and only around a method the innermost one is hidden. -/
structure Context.Fits (c : Context) (p : Position) (sites : List Site) : Prop where
  frames : List.Forall₂ Site.Fits sites c.scopes
  growing : c.role ≠ .method → c.role ≠ .members → Growing sites
  nested : Nested.In c.role p sites

/-- The scopes of a context fit the sites that are open there, slot by slot. -/
theorem Context.Fits.inside (h : c.Fits p sites) (hall : Everywhere Fine c t) {i : Nat}
    (hc : c.inside t i = some c') : c'.Fits (p.below i) ((t.opens i).map (⟨·, p⟩) ++ sites) := by
  have hform := hall.here.formed
  obtain ⟨role, S⟩ := c
  obtain ⟨hf, hg, hn⟩ := h
  dsimp only at hf hg hn hform
  have hsame {role' : Role} {S' : List Frame} (h : List.Forall₂ Site.Fits sites S')
      (hm : role ≠ .method) (hm' : role ≠ .members) (hn : Nested.In role' (p.below i) sites) :
      Context.Fits ⟨role', S'⟩ (p.below i) sites :=
    ⟨h, fun _ _ => hg hm hm', hn⟩
  have hnew {opening : Opening} {role' : Role} {S' : List Frame} (ho : opening.isHidden = false)
      (h : List.Forall₂ Site.Fits (⟨opening, p⟩ :: sites) S')
      (hn : Nested.In role' (p.below i) (⟨opening, p⟩ :: sites)) :
      Context.Fits ⟨role', S'⟩ (p.below i) (⟨opening, p⟩ :: sites) := by
    refine ⟨h, fun _ _ => ?_, hn⟩
    rintro _ ⟨⟩
    exact ho
  have hoptional {role' : Role} {u : Tree} {S' : List Frame}
      (hc : (role'.optional u).map (fun role => Context.mk role S') = some c') :
      c' = ⟨role', S'⟩ := by
    unfold Role.optional at hc
    split at hc
    · cases hc
    · exact (Option.some.inj hc).symm
  cases hform with
  | @body items =>
    cases hc
    refine hsame (List.foldlRecOn _ _ hf fun S' h t ht => fits_afterStatement (hg nofun nofun) ?_ h)
      nofun nofun hn
    obtain ⟨j, hj⟩ := List.getElem?_of_mem (List.mem_of_mem_take ht)
    exact (hall.child j rfl hj).here.formed
  | arguments =>
    cases hc
    exact hsame hf nofun nofun hn
  | members =>
    cases hc
    obtain ⟨cls, rest, rfl, hsites, hn⟩ := hn
    exact ⟨hf, fun h => absurd rfl h, cls, i, rest, rfl, hsites, hn⟩
  | method _ hparams =>
    match i, hc with
    | 2, rfl =>
      obtain ⟨cls, j, rest, rfl, rfl, hn⟩ := hn
      refine hnew rfl (fits_routine hf _ hparams) fun k p hk => ?_
      match k, hk with
      | 1, rfl => exact ⟨0, j, rfl, rfl⟩
      | k + 2, hk =>
        obtain ⟨l, j, rfl, hl⟩ := hn k p hk
        exact ⟨l + 2, j, rfl, hl⟩
  | exprStmt | printStmt | grouping | getField =>
    match i, hc with
    | 0, rfl => exact hsame hf nofun nofun hn
  | varDecl hname =>
    match i, hc with
    | 1, hc =>
      exact hoptional hc ▸ hsame (fits_bindName hf (hg nofun nofun) hname _) nofun nofun hn
  | returnStmt =>
    match i, hc with
    | 1, hc => exact hoptional hc ▸ hsame hf nofun nofun hn
  | block =>
    match i, hc with
    | 0, rfl => exact hnew rfl (.cons plain_empty hf) (Nested.cons hn nofun)
  | ifElse =>
    match i, hc with
    | 0, rfl | 1, rfl => exact hsame hf nofun nofun hn
    | 2, hc => exact hoptional hc ▸ hsame hf nofun nofun hn
  | whileLoop =>
    match i, hc with
    | 0, rfl | 1, rfl => exact hsame hf nofun nofun hn
  | funDecl hname hparams =>
    match i, hc with
    | 2, rfl =>
      exact hnew rfl (fits_routine (fits_bindReady hf (hg nofun nofun) hname) p hparams)
        (Nested.cons hn nofun)
  | rootClass hname =>
    match i, hc with
    | 2, rfl =>
      exact ⟨.cons rfl (fits_bindReady hf (hg nofun nofun) hname), fun _ h => absurd rfl h,
        p, sites, rfl, rfl, hn⟩
  | subclass hname =>
    have hbind := fits_bindReady hf (hg nofun nofun) hname
    match i, hc with
    | 1, rfl => exact hsame hbind nofun nofun hn
    | 2, rfl =>
      exact ⟨.cons rfl (.cons rfl hbind), fun _ h => absurd rfl h, p, ⟨.parent, p⟩ :: sites, rfl,
        rfl, Nested.cons hn nofun⟩
  | unary | assign =>
    match i, hc with
    | 1, rfl => exact hsame hf nofun nofun hn
  | binary | logical | call | setField =>
    match i, hc with
    | 0, rfl | 2, rfl => exact hsame hf nofun nofun hn
  | literal | ident | thisRef | superRef => cases hc

/-- The scopes that the resolver has open at a position fit their sites. -/
theorem fits_at {root : Tree} (h : Everywhere Fine ⟨.body, []⟩ root) (program : Nat) :
    ∀ {path : List Nat} {c : Context}, contextAt root path = some c →
      c.Fits ⟨program, path⟩ (sitesAt root program path)
  | [], c, hc => by
    cases hc
    exact ⟨.nil, fun _ _ => nofun, nofun⟩
  | i :: path, c, hc => by
    rw [contextAt] at hc
    obtain ⟨t, ht, hc⟩ := Option.bind_eq_some_iff.1 hc
    obtain ⟨c₀, hc₀, hc⟩ := Option.bind_eq_some_iff.1 hc
    rw [sitesAt, ht]
    exact (fits_at h program hc₀).inside (everywhere_at h ht hc₀) hc

theorem Located.fits (h : Located roots p t c) (hroots : AllFine roots) :
    c.Fits p (sitesOf roots p) := by
  obtain ⟨root, hroot, -, hc⟩ := h
  unfold sitesOf
  rw [hroot]
  exact fits_at (hroots root (List.mem_of_getElem? hroot)) p.program hc

/-- The site of the scope that a name is resolved to, and what is open there. -/
theorem Context.Fits.exists_of_depthOf? (h : c.Fits p sites) {key : Name}
    (hd : depthOf? c.scopes key = some d) :
    ∃ site frame, sites[d]? = some site ∧ site.Fits frame ∧ frame.binds key = true := by
  obtain ⟨frame, ready, hframe, hready⟩ := Resolver.exists_of_depthOf? hd
  obtain ⟨hlt', rfl⟩ := List.getElem?_eq_some_iff.1 hframe
  have hlt : d < sites.length := h.frames.length_eq ▸ hlt'
  refine ⟨sites[d], c.scopes[d], List.getElem?_eq_getElem hlt, h.frames.get hlt hlt', ?_⟩
  unfold Bindings.binds
  rw [hready]
  rfl

/-- A name that a program can declare is bound in no hidden scope. -/
theorem Context.Fits.open_of_depthOf? (h : c.Fits p sites) {s : String}
    (hs : Token.Kind.ofWord s = .identifier) (hd : depthOf? c.scopes (.ofText s) = some d) :
    ∃ site, sites[d]? = some site ∧ site.opening.isHidden = false := by
  obtain ⟨site, frame, hsite, hfits, hbinds⟩ := h.exists_of_depthOf? hd
  refine ⟨site, hsite, ?_⟩
  have hother (word : String) (hw : Token.Kind.ofWord word ≠ .identifier) :
      frame ≠ .single (.ofText word) true := by
    rintro rfl
    rw [Bindings.binds, Bindings.find?_single, Name.ofText_beq] at hbinds
    split at hbinds
    · next he => exact hw (beq_iff_eq.1 he ▸ hs)
    · cases hbinds
  obtain ⟨opening, position⟩ := site
  cases opening with
  | block | function => rfl
  | receiver => exact absurd hfits (hother "this" (by decide))
  | parent => exact absurd hfits (hother "super" (by decide))

end Fits

end LoxLang
