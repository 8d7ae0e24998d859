import LoxLang.Proofs.Rewriting

/-!
# The names of one scope

The slots where the names of a scope stand are the declarations by `var` and the parameters
(`Tree.declaresIn`), and the uses that the resolver found in the scope (`Tree.resolvesTo`). A change
of tokens that does to these names what a `Change` says, and that keeps the other tokens, gives a
tree that is like the tree before, under the mark of the scope (`KeepsNames.treeLike`). If nothing
but lines is changed then this is so for any scope (`statementLike_mapTokens`), and every program is
like itself (`statementLike_refl`).
-/

namespace LoxLang

/-! ## Slots of a scope -/

namespace Tree

/-- The slot declares a variable of the scope: it is the name after a `var`, or a parameter. -/
def declaresIn (root : Tree) (site : Site) : List Nat → Bool
  | [] => false
  | i :: path =>
    match root.at? path with
    | some (varDecl ..) => i == 0 && (sitesAt root 0 path).head? == some site
    | some (list _) =>
      path.head? == some 1 && (root.at? path.tail matches some (funDecl ..)) &&
        (⟨.function, 0, path.tail⟩ : Site) == site
    | _ => false

/-- The slot names a function or a class that is declared in the scope. -/
def definesIn (root : Tree) (site : Site) : List Nat → Bool
  | [] => false
  | i :: path =>
    match root.at? path with
    | some (funDecl ..) | some (classDecl ..) => i == 0 && (sitesAt root 0 path).head? == some site
    | _ => false

/-- The slot is the name of a use that was resolved to the scope. -/
def resolvesTo (root : Tree) (site : Site) : List Nat → Bool
  | [] => false
  | i :: path =>
    match root.at? path with
    | some (ident _ (some depth)) | some (assign _ _ (some depth)) =>
      i == 0 && (sitesAt root 0 path)[depth]? == some site
    | _ => false

/-- The slot holds a name of the scope. -/
def refersTo (root : Tree) (site : Site) (path : List Nat) : Bool :=
  root.declaresIn site path || root.resolvesTo site path

end Tree

/-! ## Marks -/

section Marks

variable {root : Tree} {site : Site} {path : List Nat} {name t : Tree}

/-- The marks of the scopes that are open at the end of a path: only the one scope is marked. -/
def marksAt (root : Tree) (site : Site) (path : List Nat) : List Bool :=
  (sitesAt root 0 path).map (· == site) ++ [false]

theorem headD_marksAt (path : List Nat) :
    (marksAt root site path).headD false = ((sitesAt root 0 path).head? == some site) := by
  unfold marksAt
  cases sitesAt root 0 path with
  | nil => rfl
  | cons s sites => rfl

/-- A depth is marked where it leads to the site. -/
theorem markAt_marksAt (path : List Nat) (depth : Nat) :
    markAt (marksAt root site path) (some depth) =
      ((sitesAt root 0 path)[depth]? == some site) := by
  rw [markAt, marksAt, List.getD_eq_getElem?_getD]
  cases hs : (sitesAt root 0 path)[depth]? with
  | some s =>
    rw [List.getElem?_append_left (by simpa using (List.getElem?_eq_some_iff.1 hs).1),
      List.getElem?_map, hs]
    rfl
  | none =>
    have hle := List.getElem?_eq_none_iff.1 hs
    rw [List.getElem?_append_right (by simpa using hle)]
    cases depth - ((sitesAt root 0 path).map (· == site)).length <;> rfl

theorem marksAt_cons (ht : root.at? path = some t) (i : Nat) :
    marksAt root site (i :: path) =
      (t.opens i).map (fun opening => (⟨opening, 0, path⟩ : Site) == site) ++
        marksAt root site path := by
  simp [marksAt, sitesAt, ht]

/-- The scopes of a class are not marked, since they bind no variable. -/
theorem marksAt_members {parent methods : Tree}
    (ht : root.at? path = some (.classDecl name parent methods))
    (hlocal : site.opening.isHidden = false) :
    marksAt root site (2 :: path) = marksAroundMethods (marksAt root site path) parent := by
  have hidden (opening : Opening) (ho : opening.isHidden = true) :
      ((⟨opening, 0, path⟩ : Site) == site) = false := by
    rw [beq_eq_false_iff_ne]
    rintro rfl
    rw [hlocal] at ho
    cases ho
  have hreceiver := hidden .receiver rfl
  have hparent := hidden .parent rfl
  rw [marksAt_cons ht, Tree.opens, marksAroundMethods]
  cases parent.isNull with
  | true => simp [hreceiver]
  | false => simp [hreceiver, hparent]

/-- A variable can be named right below the tree. -/
def Tree.namesVariable : Tree → Bool
  | list _ | varDecl .. | ident .. | assign .. => true
  | _ => false

theorem Tree.refersTo_other (ht : root.at? path = some t) (h : t.namesVariable = false) (i : Nat) :
    root.refersTo site (i :: path) = false := by
  rw [refersTo, declaresIn, resolvesTo, ht]
  cases t <;> first | rfl | cases h

theorem Tree.namesVariable_declaration (h : t.isFunction = true ∨ t.isClass = true) :
    t.namesVariable = false := by
  cases t with
  | funDecl | classDecl => rfl
  | _ => simp [isFunction, isClass] at h

/-- A variable is declared in the innermost scope. -/
theorem Tree.refersTo_varDecl {initializer : Tree}
    (ht : root.at? path = some (.varDecl name initializer)) :
    root.refersTo site (0 :: path) = (marksAt root site path).headD false := by
  rw [headD_marksAt]
  simp [refersTo, declaresIn, resolvesTo, ht]

/-- A parameter is declared in the scope of its function. -/
theorem Tree.refersTo_parameter {body : Tree} {params : List Tree}
    (ht : root.at? path = some (.funDecl name (.list params) body)) (i : Nat) :
    root.refersTo site (i :: 1 :: path) = ((⟨.function, 0, path⟩ : Site) == site) := by
  have hlist := at?_cons ht 1 rfl
  simp [refersTo, declaresIn, resolvesTo, hlist, ht]

/-- A variable is used in the scope that the resolver has found. -/
theorem Tree.refersTo_use {depth : Option Nat} (ht : root.at? path = some t)
    (h : t = .ident name depth ∨ ∃ value, t = .assign name value depth) :
    root.refersTo site (0 :: path) = markAt (marksAt root site path) depth := by
  cases depth with
  | none => obtain rfl | ⟨value, rfl⟩ := h <;> simp [refersTo, declaresIn, resolvesTo, ht, markAt]
  | some depth =>
    rw [markAt_marksAt]
    obtain rfl | ⟨value, rfl⟩ := h <;> simp [refersTo, declaresIn, resolvesTo, ht]

/-- Functions and classes are declared in the innermost scope as well. -/
theorem Tree.definesIn_declaration (ht : root.at? path = some t)
    (h : t.isFunction = true ∨ t.isClass = true) :
    root.definesIn site (0 :: path) = (marksAt root site path).headD false := by
  rw [headD_marksAt]
  cases t with
  | funDecl | classDecl => simp [definesIn, ht]
  | _ => simp [isFunction, isClass] at h

/-! ## Changed tokens -/

/-- The change of the tokens renames the names of the scope and nothing else. -/
structure KeepsNames (ρ : Change) (root : Tree) (site : Site) (f : List Nat → Token → Token) :
    Prop where
  isLocal : site.opening.isHidden = false
  token {path : List Nat} {t : Tree} {i : Nat} {a : Token} : root.at? path = some t →
    t.namesVariable = false → t.children[i]? = some (.token a) →
    TokenLike ρ (.token a) (.token (f (i :: path) a))
  name {path : List Nat} {a : Token} : root.at? path = some (.token a) →
    NameLike ρ (root.refersTo site path) (.token a) (.token (f path a))
  declaration {path : List Nat} {t : Tree} {a : Token} : root.at? path = some t →
    t.isFunction = true ∨ t.isClass = true → t.children[0]? = some (.token a) →
    NameLike ρ ((marksAt root site path).headD false) (.token a) (.token (f (0 :: path) a))
  keyword {path : List Nat} {t : Tree} {a : Token} {word : String} {marked : Bool} :
    root.at? path = some t → t.namesVariable = false → t.children[0]? = some (.token a) →
    a.lexeme = .str word → Token.Kind.ofWord word ≠ .identifier →
    NameLike ρ marked (.token a) (.token (f (0 :: path) a))

namespace KeepsNames

variable {ρ : Change} {f : List Nat → Token → Token} (hf : KeepsNames ρ root site f) {u : Tree}
include hf

theorem tokenLike (ht : root.at? path = some t) (h : t.namesVariable = false) (i : Nat)
    (hu : t.children[i]? = some u) (hname : u.IsName) :
    TokenLike ρ u (u.rewrite f (i :: path)) := by
  obtain ⟨a, -, rfl, -⟩ := hname
  exact hf.token ht h hu

theorem nameLike (ht : root.at? path = some t) (i : Nat) (hu : t.children[i]? = some u)
    (hname : u.IsName) :
    NameLike ρ (root.refersTo site (i :: path)) u (u.rewrite f (i :: path)) := by
  obtain ⟨a, -, rfl, -⟩ := hname
  exact hf.name (Tree.at?_cons ht i hu)

theorem nameLike_declaration (ht : root.at? path = some t)
    (h : t.isFunction = true ∨ t.isClass = true) (hu : t.children[0]? = some u)
    (hname : u.IsName) :
    NameLike ρ ((marksAt root site path).headD false) u (u.rewrite f (0 :: path)) := by
  obtain ⟨a, -, rfl, -⟩ := hname
  exact hf.declaration ht h hu

theorem nameLike_keyword (ht : root.at? path = some t) (h : t.namesVariable = false)
    {word : String} {marked : Bool} (hu : t.children[0]? = some u) (hword : u.IsWord word)
    (hw : Token.Kind.ofWord word ≠ .identifier) :
    NameLike ρ marked u (u.rewrite f (0 :: path)) := by
  obtain ⟨a, rfl, ha⟩ := hword
  exact hf.keyword ht h hu ha hw

/-- A function is like its rewriting if its body is. -/
theorem treeLike_routine {body : Tree} {params : List Tree}
    (ht : root.at? path = some (.funDecl name (.list params) body)) (hname : name.IsName)
    (hparams : ∀ p ∈ params, p.IsName)
    (hbody : TreeLike ρ .body (marksAt root site (2 :: path)) body
      (body.rewrite f (2 :: path))) :
    TreeLike ρ .method (marksAt root site path)
      (.funDecl name (.list params) body)
      ((Tree.funDecl name (.list params) body).rewrite f path) := by
  rw [marksAt_cons ht] at hbody
  refine .method (hf.tokenLike ht rfl 0 rfl hname)
    (List.forall₂_iff_zip.2 ⟨(Tree.length_rewriteIn _ _ _ _).symm, fun {p p'} hp => ?_⟩) hbody
  obtain ⟨i, hi, rfl⟩ := Tree.mem_zip_rewriteIn hp
  beta_reduce
  rw [← Tree.refersTo_parameter ht i]
  exact hf.nameLike (Tree.at?_cons ht 1 rfl) i hi (hparams p (List.mem_of_getElem? hi))

/-- The changed tree is like the tree before, under the mark of the one scope. -/
theorem treeLike {c : Context} (h : Everywhere (fun c u => Formed c.role u) c t) :
    ∀ path : List Nat, root.at? path = some t →
      TreeLike ρ c.role (marksAt root site path) t
        (t.rewrite f path) := by
  induction h with
  | @intro c t here _ ih =>
  intro path ht
  obtain ⟨role, scopes⟩ := c
  have below {i : Nat} {role' : Role} {u : Tree} (hr : role.inside t i = some role')
      (hu : t.children[i]? = some u) :
      TreeLike ρ role' (marksAt root site (i :: path)) u
        (u.rewrite f (i :: path)) := by
    have hc : Context.inside ⟨role, scopes⟩ t i =
        some ⟨role', scopesInside scopes role t i⟩ := by simp [Context.inside, hr]
    exact ih hc hu (i :: path) (Tree.at?_cons ht i hu)
  -- most slots are in the scopes of the tree itself
  have within {i : Nat} {role' : Role} {u : Tree} (ho : t.opens i = [])
      (hr : role.inside t i = some role') (hu : t.children[i]? = some u) :
      TreeLike ρ role' (marksAt root site path) u
        (u.rewrite f (i :: path)) := by
    have hbelow := below hr hu
    rwa [marksAt_cons ht, ho] at hbelow
  have item {items : List Tree} {role' : Role} (htree : t = .list items)
      (hr : ∀ i, role.inside t i = some role') {u u' : Tree}
      (hu : (u, u') ∈ items.zip (Tree.rewriteIn f path 0 items)) :
      TreeLike ρ role' (marksAt root site path) u u' := by
    obtain ⟨i, hi, rfl⟩ := Tree.mem_zip_rewriteIn hu
    exact within (by rw [htree]; rfl) (hr i) (by rw [htree]; exact hi)
  cases here with
  | body => exact .body (Tree.length_rewriteIn _ _ _ _).symm (item rfl fun _ => rfl)
  | arguments => exact .arguments (Tree.length_rewriteIn _ _ _ _).symm (item rfl fun _ => rfl)
  | members => exact .members (Tree.length_rewriteIn _ _ _ _).symm (item rfl fun _ => rfl)
  | method hname hparams => exact hf.treeLike_routine ht hname hparams (below rfl rfl)
  | exprStmt => exact .exprStmt (within (i := 0) rfl rfl rfl)
  | printStmt => exact .printStmt (within (i := 0) rfl rfl rfl)
  | @varDecl name initializer hname =>
    have hn : NameLike ρ ((marksAt root site path).headD false) name
        (name.rewrite f (0 :: path)) := by
      rw [← Tree.refersTo_varDecl ht]
      exact hf.nameLike ht 0 rfl hname
    by_cases hnull : initializer.isNull = true
    · rw [Tree.eq_null_of_isNull hnull]
      exact .emptyVar hn
    · exact .varDecl hn (within (i := 1) rfl (by simp [Role.inside, Role.optional, hnull]) rfl)
  | block =>
    have hbody := below (i := 0) rfl rfl
    rw [marksAt_cons ht] at hbody
    exact .block hbody
  | @ifElse _ _ elseBranch =>
    by_cases hnull : elseBranch.isNull = true
    · rw [Tree.eq_null_of_isNull hnull] at ht ⊢
      exact .ifOnly (within (i := 0) rfl rfl rfl) (within (i := 1) rfl rfl rfl)
    · exact .ifElse (within (i := 0) rfl rfl rfl) (within (i := 1) rfl rfl rfl)
        (within (i := 2) rfl (by simp [Role.inside, Role.optional, hnull]) rfl)
  | whileLoop => exact .whileLoop (within (i := 0) rfl rfl rfl) (within (i := 1) rfl rfl rfl)
  | funDecl hname hparams =>
    exact .funDecl (hf.nameLike_declaration ht (.inl rfl) rfl hname)
      (hf.treeLike_routine ht hname hparams (below rfl rfl))
  | @returnStmt _ value =>
    by_cases hnull : value.isNull = true
    · rw [Tree.eq_null_of_isNull hnull] at ht ⊢
      exact .emptyReturn (hf.token (i := 0) ht rfl rfl)
    · exact .returnStmt (hf.token (i := 0) ht rfl rfl)
        (within (i := 1) rfl (by simp [Role.inside, Role.optional, hnull]) rfl)
  | rootClass hname =>
    have hmembers := below (i := 2) rfl rfl
    rw [marksAt_members ht hf.isLocal] at hmembers
    exact .rootClass (hf.tokenLike ht rfl 0 rfl hname)
      (hf.nameLike_declaration ht (.inr rfl) rfl hname) hmembers
  | subclass hname hparent =>
    have hmembers := below (i := 2) rfl rfl
    rw [marksAt_members ht hf.isLocal] at hmembers
    exact .subclass (hf.tokenLike ht rfl 0 rfl hname)
      (hf.nameLike_declaration ht (.inr rfl) rfl hname)
      (within (i := 1) rfl rfl rfl) hmembers
  | literal => exact .literal
  | unary =>
    exact .unary (hf.token (i := 0) ht rfl rfl) (within (i := 1) rfl rfl rfl)
  | binary =>
    exact .binary (within (i := 0) rfl rfl rfl) (hf.token (i := 1) ht rfl rfl)
      (within (i := 2) rfl rfl rfl)
  | logical =>
    exact .logical (within (i := 0) rfl rfl rfl) (hf.token (i := 1) ht rfl rfl)
      (within (i := 2) rfl rfl rfl)
  | grouping => exact .grouping (within (i := 0) rfl rfl rfl)
  | ident hname =>
    refine .ident ?_
    rw [← Tree.refersTo_use ht (.inl rfl)]
    exact hf.nameLike ht 0 rfl hname
  | assign hname =>
    refine .assign ?_ (within (i := 1) rfl rfl rfl)
    rw [← Tree.refersTo_use ht (.inr ⟨_, rfl⟩)]
    exact hf.nameLike ht 0 rfl hname
  | call =>
    exact .call (within (i := 0) rfl rfl rfl) (hf.token (i := 1) ht rfl rfl)
      (within (i := 2) rfl rfl rfl)
  | getField hname =>
    exact .getField (within (i := 0) rfl rfl rfl) (hf.tokenLike ht rfl 1 rfl hname)
  | setField hname =>
    exact .setField (within (i := 0) rfl rfl rfl) (hf.tokenLike ht rfl 1 rfl hname)
      (within (i := 2) rfl rfl rfl)
  | thisRef hword =>
    exact .thisRef (hf.nameLike_keyword ht rfl rfl hword (by decide))
  | superRef hword hmethod =>
    exact .superRef (hf.nameLike_keyword ht rfl rfl hword (by decide))
      (hf.tokenLike ht rfl 1 rfl hmethod)

end KeepsNames

end Marks

/-! ## Changed lines -/

section Lines

variable {line : Json → Json → Prop} {f : Token → Token} {t : Tree}

/-- The token changes only its line. -/
def Moves (line : Json → Json → Prop) (f : Token → Token) (a : Token) : Prop :=
  (f a).kind = a.kind ∧ (f a).lexeme = a.lexeme ∧ line a.line (f a).line

theorem Moves.tokenLike {a : Token} (h : Moves line f a) :
    TokenLike (.ofLines line) (.token a) (.token (f a)) :=
  ⟨a, f a, rfl, rfl, h.1, h.2.1, h.2.2⟩

theorem Moves.nameLike {a : Token} (h : Moves line f a) (marked : Bool) :
    NameLike (.ofLines line) marked (.token a) (.token (f a)) := by
  refine ⟨a, f a, rfl, rfl, ?_, h.2.2⟩
  unfold Token.name
  rw [h.2.1]
  cases a.lexeme <;> cases marked <;> rfl

theorem keepsNames_moves {root : Tree} (hf : ∀ a ∈ root.tokens, Moves line f a) :
    KeepsNames (.ofLines line) root ⟨.block, 0, []⟩ fun _ => f := by
  have moves {path : List Nat} {a : Token} (ha : root.at? path = some (.token a)) :
      Moves line f a :=
    hf a (Tree.mem_tokens_of_at? ha (by simp [Tree.tokens]))
  exact ⟨rfl, fun ht _ hu => (moves (Tree.at?_cons ht _ hu)).tokenLike,
    fun ha => (moves ha).nameLike _, fun ht _ hu => (moves (Tree.at?_cons ht 0 hu)).nameLike _,
    fun ht _ hu _ _ => (moves (Tree.at?_cons ht 0 hu)).nameLike _⟩

/-- A statement whose tokens change only their lines is like the statement before. One without a
token has no line of its own. -/
theorem statementLike_mapTokens (h : WellFormed .statement t) (hzero : line (.int 0) (.int 0))
    (hf : ∀ a ∈ t.tokens, Moves line f a) : StatementLike (.ofLines line) t (t.mapTokens f) := by
  have hlike := (keepsNames_moves hf).treeLike (h []) [] rfl
  rw [Tree.rewrite_const] at hlike
  refine ⟨hlike, ?_⟩
  rw [Tree.firstLine_eq, Tree.firstLine_eq, Tree.tokens_mapTokens]
  cases ht : t.tokens with
  | nil => exact hzero
  | cons a _ => exact (hf a (by simp [ht])).2.2

end Lines

theorem statementLike_refl {t : Tree} (h : WellFormed .statement t) :
    StatementLike (.ofLines Eq) t t := by
  have hlike := statementLike_mapTokens (f := id) h rfl fun _ _ => ⟨rfl, rfl, rfl⟩
  rwa [Tree.mapTokens_id] at hlike

end LoxLang
