import Mathlib.Data.List.Induction
import Mathlib.Data.List.Nodup
import LoxLang.Proofs.Depths

/-!
# Tokens changed by their places

`Tree.rewrite` changes the tokens of a tree, each in a way that depends on the path to it. A program
can be written down with its tokens changed like that (`parse_rewrite`). This is so because no token
of a source comes to stand at two places of a tree (`Derives.subperm`). To tell equal tokens apart
they are numbered, and the parser does not notice (`parse_map`).
-/

namespace LoxLang

variable {t u : Tree} {path : List Nat} {f : List Nat → Token → Token} {a : Token} {b : Bool}
  {ts : List Token}

namespace Tree

/-! ## Changes by place -/

mutual

/-- The tree at the end of a path, each token changed by the path to it. -/
def rewrite (f : List Nat → Token → Token) (path : List Nat) : Tree → Tree
  | scalar s => scalar s
  | object fields => object fields
  | token t => token (f path t)
  | list items => list (rewriteIn f path 0 items)
  | literal v serial => literal (rewrite f (0 :: path) v) serial
  | unary op r => unary (rewrite f (0 :: path) op) (rewrite f (1 :: path) r)
  | binary l op r =>
    binary (rewrite f (0 :: path) l) (rewrite f (1 :: path) op) (rewrite f (2 :: path) r)
  | logical l op r =>
    logical (rewrite f (0 :: path) l) (rewrite f (1 :: path) op) (rewrite f (2 :: path) r)
  | grouping e => grouping (rewrite f (0 :: path) e)
  | ident n d => ident (rewrite f (0 :: path) n) d
  | assign n v d => assign (rewrite f (0 :: path) n) (rewrite f (1 :: path) v) d
  | call c p as =>
    call (rewrite f (0 :: path) c) (rewrite f (1 :: path) p) (rewrite f (2 :: path) as)
  | getField o n => getField (rewrite f (0 :: path) o) (rewrite f (1 :: path) n)
  | setField o n v =>
    setField (rewrite f (0 :: path) o) (rewrite f (1 :: path) n) (rewrite f (2 :: path) v)
  | thisRef k d => thisRef (rewrite f (0 :: path) k) d
  | superRef k m d => superRef (rewrite f (0 :: path) k) (rewrite f (1 :: path) m) d
  | exprStmt e => exprStmt (rewrite f (0 :: path) e)
  | printStmt e => printStmt (rewrite f (0 :: path) e)
  | varDecl n i => varDecl (rewrite f (0 :: path) n) (rewrite f (1 :: path) i)
  | block ss => block (rewrite f (0 :: path) ss)
  | ifElse c t e =>
    ifElse (rewrite f (0 :: path) c) (rewrite f (1 :: path) t) (rewrite f (2 :: path) e)
  | whileLoop c b => whileLoop (rewrite f (0 :: path) c) (rewrite f (1 :: path) b)
  | funDecl n ps b =>
    funDecl (rewrite f (0 :: path) n) (rewrite f (1 :: path) ps) (rewrite f (2 :: path) b)
  | returnStmt k v => returnStmt (rewrite f (0 :: path) k) (rewrite f (1 :: path) v)
  | classDecl n s ms =>
    classDecl (rewrite f (0 :: path) n) (rewrite f (1 :: path) s) (rewrite f (2 :: path) ms)

/-- The items of a list from a number on. -/
def rewriteIn (f : List Nat → Token → Token) (path : List Nat) (i : Nat) : List Tree → List Tree
  | [] => []
  | t :: ts => rewrite f (i :: path) t :: rewriteIn f path (i + 1) ts

end

section Rewrite

variable (f g : List Nat → Token → Token)

theorem getElem?_rewriteIn (path : List Nat) :
    ∀ (items : List Tree) (n i : Nat), (rewriteIn f path n items)[i]? =
      (items[i]?).map (rewrite f ((n + i) :: path))
  | [], _, _ => rfl
  | _ :: _, _, 0 => rfl
  | _ :: items, n, i + 1 => by
    rw [rewriteIn, List.getElem?_cons_succ, List.getElem?_cons_succ, getElem?_rewriteIn,
      Nat.add_right_comm, Nat.add_assoc]

/-- A change that depends on no path. -/
theorem rewrite_const (f : Token → Token) (t : Tree) (path : List Nat) :
    rewrite (fun _ => f) path t = t.mapTokens f := by
  induction t using children_ind generalizing path with
  | step t ih =>
    cases t with
    | list items =>
      refine congrArg list (List.ext_getElem? fun i => ?_)
      rw [getElem?_rewriteIn, mapTokensIn_eq, List.getElem?_map]
      exact Option.map_congr fun u hu => ih u (List.mem_of_getElem? hu) _
    | _ => simp_all [rewrite, mapTokens, children]

/-- Two changes of tokens are one. -/
theorem rewrite_rewrite (t : Tree) (path : List Nat) :
    rewrite f path (rewrite g path t) = rewrite (fun p a => f p (g p a)) path t := by
  induction t using children_ind generalizing path with
  | step t ih =>
    cases t with
    | list items =>
      refine congrArg list (List.ext_getElem? fun i => ?_)
      simp only [getElem?_rewriteIn, Option.map_map]
      exact Option.map_congr fun u hu => ih u (List.mem_of_getElem? hu) _
    | _ => simp_all [rewrite, children]

/-- Tokens and depths change independently. -/
theorem bare_rewrite (t : Tree) (path : List Nat) :
    (rewrite f path t).bare = rewrite f path t.bare := by
  induction t using children_ind generalizing path with
  | step t ih =>
    cases t with
    | list items =>
      refine congrArg list (List.ext_getElem? fun i => ?_)
      simp only [bareIn_eq, List.getElem?_map, getElem?_rewriteIn, Option.map_map]
      exact Option.map_congr fun u hu => ih u (List.mem_of_getElem? hu) _
    | _ => simp_all [rewrite, bare, children]

end Rewrite

/-- Two changes of tokens, one after the other, are one change. -/
theorem mapTokens_mapTokens (f g : Token → Token) (t : Tree) :
    (t.mapTokens f).mapTokens g = t.mapTokens (g ∘ f) := by
  rw [← rewrite_const f t [], ← rewrite_const g _ [], rewrite_rewrite, ← rewrite_const (g ∘ f) t []]
  rfl

theorem bare_mapTokens (f : Token → Token) (t : Tree) :
    (t.mapTokens f).bare = t.bare.mapTokens f := by
  rw [← rewrite_const f t [], bare_rewrite, rewrite_const]

section Congr

variable {f g : List Nat → Token → Token} {root : Tree}

theorem at?_cons (ht : root.at? path = some t) (i : Nat) (hu : t.children[i]? = some u) :
    root.at? (i :: path) = some u := by
  rw [at?, ht]
  exact hu

/-- Only the tokens of a tree count, at the places where they are. -/
theorem rewrite_congr (h : ∀ path a, root.at? path = some (token a) → f path a = g path a)
    (t : Tree) (path : List Nat) (ht : root.at? path = some t) :
    rewrite f path t = rewrite g path t := by
  induction t using children_ind generalizing path with
  | step t ih =>
    have hbelow : ∀ (i : Nat) u, t.children[i]? = some u →
        rewrite f (i :: path) u = rewrite g (i :: path) u :=
      fun i u hu => ih u (List.mem_of_getElem? hu) _ (at?_cons ht i hu)
    cases t with
    | scalar | object => rfl
    | token a => exact congrArg token (h path a ht)
    | list items =>
      refine congrArg list (List.ext_getElem? fun i => ?_)
      rw [getElem?_rewriteIn, getElem?_rewriteIn, Nat.zero_add]
      exact Option.map_congr (hbelow i)
    | _ => simp [rewrite, hbelow, children]

end Congr

theorem length_rewriteIn (f : List Nat → Token → Token) (path : List Nat) :
    ∀ (items : List Tree) (n : Nat), (rewriteIn f path n items).length = items.length
  | [], _ => rfl
  | _ :: items, n => by
    rw [rewriteIn, List.length_cons, List.length_cons, length_rewriteIn f path items]

/-- The items of a list beside the changed ones. -/
theorem mem_zip_rewriteIn {items : List Tree} {u' : Tree}
    (h : (u, u') ∈ items.zip (rewriteIn f path 0 items)) :
    ∃ i, items[i]? = some u ∧ u' = rewrite f (i :: path) u := by
  obtain ⟨i, hi⟩ := List.getElem?_of_mem h
  obtain ⟨hu, hu'⟩ := List.getElem?_zip_eq_some.1 hi
  rw [getElem?_rewriteIn, hu, Nat.zero_add] at hu'
  exact ⟨i, hu, (Option.some.inj hu').symm⟩

theorem children_rewrite (f : List Nat → Token → Token) (path : List Nat) (t : Tree) (i : Nat) :
    (rewrite f path t).children[i]? = (t.children[i]?).map (rewrite f (i :: path)) := by
  cases t with
  | list items =>
    have h := getElem?_rewriteIn f path items 0 i
    rwa [Nat.zero_add] at h
  | _ => rcases i with _ | _ | _ | i <;> rfl

/-- What stands at the end of a path after a change. -/
theorem at?_rewrite (f : List Nat → Token → Token) (t : Tree) :
    ∀ path, (rewrite f [] t).at? path = (t.at? path).map (rewrite f path)
  | [] => rfl
  | i :: path => by
    rw [at?, at?, at?_rewrite f t path]
    cases t.at? path with
    | none => rfl
    | some u => exact children_rewrite f path u i

/-- A change that leaves the lines leaves the first line. -/
theorem firstLine_rewrite (h : ∀ path a, (f path a).line = a.line) (t : Tree) (path : List Nat) :
    (rewrite f path t).firstLine = t.firstLine := by
  let lineOnly (a : Token) : Token := { (default : Token) with line := a.line }
  have hsame : (rewrite f path t).mapTokens lineOnly = t.mapTokens lineOnly := by
    rw [← rewrite_const lineOnly _ path, rewrite_rewrite, ← rewrite_const lineOnly t path]
    congr
    funext q a
    show ({ (default : Token) with line := (f q a).line } : Token) = _
    rw [h]
  have hlines := congrArg (fun t : Tree => t.tokens.map Token.line) hsame
  simp only [tokens_mapTokens, List.map_map] at hlines
  change (rewrite f path t).tokens.map Token.line = t.tokens.map Token.line at hlines
  rw [firstLine_eq, firstLine_eq, ← List.head?_map, ← List.head?_map, hlines]

/-! ## Places of tokens -/

theorem children_mapTokens (f : Token → Token) (t : Tree) :
    (t.mapTokens f).children = t.children.map (mapTokens f) := by
  cases t <;> simp [mapTokens, children, mapTokensIn_eq]

theorem at?_mapTokens (f : Token → Token) (t : Tree) :
    ∀ path, (t.mapTokens f).at? path = (t.at? path).map (mapTokens f)
  | [] => rfl
  | i :: path => by
    rw [at?, at?, at?_mapTokens f t path]
    cases t.at? path with
    | none => rfl
    | some u => simp [children_mapTokens]

/-- The first step of a path stands last. -/
theorem at?_append_singleton (t : Tree) (i : Nat) :
    ∀ path, t.at? (path ++ [i]) = (t.children[i]?).bind (at? · path)
  | [] => by simp [at?]
  | j :: path => by
    rw [List.cons_append, at?, at?_append_singleton t i path]
    cases t.children[i]? with
    | none => rfl
    | some u => rfl

theorem mem_tokens_of_at? {t : Tree} {a : Token} :
    ∀ {path : List Nat} {u : Tree}, t.at? path = some u → a ∈ u.tokens → a ∈ t.tokens
  | [], u, hu, ha => by
    cases hu
    exact ha
  | i :: path, u, hu, ha => by
    obtain ⟨v, hv, hi⟩ := Option.bind_eq_some_iff.1 hu
    exact mem_tokens_of_at? hv (mem_tokens_of_child hi ha)

theorem mem_tokens_of_token (h : t.at? path = some (token a)) : a ∈ t.tokens :=
  mem_tokens_of_at? h (List.mem_singleton.2 rfl)

/-- Two places of one token are the same place, if no token is there twice. -/
theorem at?_injective {p : List Nat} :
    ∀ {t : Tree} {q : List Nat}, t.tokens.Nodup → t.at? p = some (token a) →
      t.at? q = some (token a) → p = q := by
  have htoken {i : Nat} {q : List Nat} : (token a).at? (q ++ [i]) ≠ some (token a) := by
    rw [at?_append_singleton]
    nofun
  induction p using List.reverseRecOn with
  | nil =>
    intro t q _ hp hq
    cases hp
    cases q using List.reverseRecOn with
    | nil => rfl
    | append_singleton q j => exact absurd hq htoken
  | append_singleton p i ih =>
    intro t q hnodup hp hq
    cases q using List.reverseRecOn with
    | nil =>
      cases hq
      exact absurd hp htoken
    | append_singleton q j =>
      rw [at?_append_singleton] at hp hq
      obtain ⟨u, hu, hp⟩ := Option.bind_eq_some_iff.1 hp
      obtain ⟨v, hv, hq⟩ := Option.bind_eq_some_iff.1 hq
      have hnone : t.asToken? = none := by
        cases t <;> first | rfl | cases hu
      rw [tokens_eq_children hnone, List.nodup_flatMap] at hnodup
      have hau := mem_tokens_of_token hp
      have hav := mem_tokens_of_token hq
      obtain ⟨hi, rfl⟩ := List.getElem?_eq_some_iff.1 hu
      obtain ⟨hj, rfl⟩ := List.getElem?_eq_some_iff.1 hv
      have hapart {i j : Nat} (hi : i < t.children.length) (hj : j < t.children.length)
          (hau : a ∈ (t.children[i]).tokens) (hav : a ∈ (t.children[j]).tokens) : ¬i < j :=
        fun hlt => List.pairwise_iff_getElem.1 hnodup.2 i j hi hj hlt hau hav
      obtain rfl : i = j :=
        Nat.le_antisymm (Nat.not_lt.1 (hapart hj hi hav hau)) (Nat.not_lt.1 (hapart hi hj hau hav))
      rw [ih (hnodup.1 _ (List.getElem_mem hi)) hp hq]

/-- Where no token is at two places, a change by places is a change of tokens. -/
theorem exists_change (h : t.tokens.Nodup) (g : List Nat → Token → Token) (other : Token → Token) :
    ∃ f : Token → Token, (∀ {path a}, t.at? path = some (token a) → f a = g path a) ∧
      ∀ a, f a = other a ∨ ∃ path, t.at? path = some (token a) := by
  classical
  refine ⟨fun a => if h : ∃ path, t.at? path = some (token a) then g h.choose a else other a,
    fun {path a} ha => ?_, fun a => ?_⟩
  · have hex : ∃ path, t.at? path = some (token a) := ⟨path, ha⟩
    dsimp only
    rw [dif_pos hex, at?_injective h hex.choose_spec ha]
  · by_cases ha : ∃ path, t.at? path = some (token a)
    · exact .inr ha
    · exact .inl (dif_neg ha)

end Tree

/-! ## Tokens of derivations -/

namespace Grammar

open LoxLang.Tree (tokens)

variable {sym : Symbol}

theorem Level.tokens_tree (level : Level) (l op r : Tree) :
    (level.tree l op r).tokens = l.tokens ++ op.tokens ++ r.tokens := by
  cases level <;> rfl

section Count

variable (p : Token → Bool)

theorem countP_headD_le (ts : List Tree) {t : Tree} (ht : t.tokens = []) :
    (ts.headD t).tokens.countP p ≤ (ts.flatMap tokens).countP p := by
  cases ts with
  | nil => simp [ht]
  | cons u ts => simp

theorem countP_forLoop_le (start condition step : List Tree) (body : Tree) :
    (forLoop start condition step body).tokens.countP p ≤
      (start.flatMap tokens).countP p + (condition.flatMap tokens).countP p +
        (step.flatMap tokens).countP p + body.tokens.countP p := by
  have hcondition := countP_headD_le p condition (t := .literal (.scalar (.bool true)) none) rfl
  cases start <;> cases step <;>
    simp only [forLoop, Tree.tokens, Tree.tokensIn, List.append_nil, List.countP_append,
      List.flatMap_cons, List.flatMap_nil, List.countP_nil] at * <;> omega

/-- A derivation puts each of its tokens at one place of its trees, or nowhere. -/
theorem Derives.countP_le {trees : List Tree} (h : Derives b sym ts trees) :
    (trees.flatMap tokens).countP p ≤ ts.countP p := by
  induction h with
  | program _ ih | declareClass _ ih | declareFun _ ih | declareVar _ ih | statement _ ih
  | parameters _ _ ih | expressionStatement _ ih | startVar _ ih | startExpression _ ih
  | clause _ ih | expression _ ih | noAssignment _ ih | operand _ ih | noUnary _ ih | callee _ ih
  | arguments _ _ ih | oneExpression _ ih => exact ih
  | noDeclaration | noMethod | noParameter | noClause | noArgument => exact Nat.le_refl _
  | number | string => simp [Tree.tokens, Tree.tokens_ofJson]
  | forStatement _ _ _ _ _ _ _ _ ih₁ ih₂ ih₃ ih₄ =>
    refine Nat.le_trans (by simpa using countP_forLoop_le p _ _ _ _) ?_
    simp only [List.flatMap_cons, List.flatMap_nil, List.append_nil, List.countP_append,
      List.countP_cons] at *
    omega
  | @returnStatement _ _ _ value _ _ _ ih =>
    have hvalue := countP_headD_le p value (t := .null) rfl
    simp only [List.flatMap_cons, List.flatMap_nil, List.append_nil, List.countP_append,
      List.countP_cons, List.countP_nil, Tree.tokens] at *
    omega
  | _ =>
    simp only [List.flatMap_cons, List.flatMap_nil, List.append_nil, List.countP_append,
      List.countP_cons, List.countP_nil, Tree.tokens, Tree.tokensIn_eq, Tree.null,
      Level.tokens_tree] at *
    omega

end Count

theorem Derives.subperm {trees : List Tree} (h : Derives b sym ts trees) :
    (trees.flatMap tokens).Subperm ts := by
  classical
  exact List.subperm_ext_iff.2 fun a _ => h.countP_le (· == a)

end Grammar

/-! ## Numbered tokens -/

/-- The tokens with their numbers for lines. -/
def numbered (ts : List Token) : List Token :=
  ts.mapIdx fun i a => { a with line := .int i }

/-- The line of the token of a number. -/
def lineOf (ts : List Token) : Json → Json
  | .scalar (.int n) => ((ts[n.toNat]?).map Token.line).getD (.int n)
  | line => line

/-- A numbered token gets back the line that it had. -/
def restored (ts : List Token) (a : Token) : Token :=
  { a with line := lineOf ts a.line }

theorem keepsKinds_restored (ts : List Token) : Parser.KeepsKinds (restored ts) :=
  ⟨fun _ => rfl, fun _ => rfl⟩

theorem map_restored_numbered (ts : List Token) : (numbered ts).map (restored ts) = ts := by
  refine List.ext_getElem? fun i => ?_
  rw [numbered, List.getElem?_map, List.getElem?_mapIdx]
  cases h : ts[i]? with
  | none => rfl
  | some a =>
    show some { a with line := ((ts[(i : Int).toNat]?).map Token.line).getD _ } = some a
    rw [Int.toNat_natCast, h]
    rfl

theorem nodup_numbered (ts : List Token) : (numbered ts).Nodup := by
  refine .of_map Token.line ?_
  have hlines : (numbered ts).map Token.line =
      (List.range ts.length).map fun i : Nat => Json.int i := by
    refine List.ext_getElem (by simp [numbered]) fun i hi _ => ?_
    simp [numbered]
  rw [hlines]
  refine List.nodup_range.map fun i j h => ?_
  simpa only [Json.int, Json.scalar.injEq, Scalar.int.injEq, Int.natCast_inj] using h

/-! ## Programs -/

/-- A program can be written down with its tokens changed by their places. -/
theorem parse_rewrite {e : Token} (hts : ∀ a ∈ ts, a.kind ≠ .eof) (he : e.kind = .eof)
    {trees : List Tree} (h : parse? (ts ++ [e]) = some ⟨trees, []⟩) {g : List Nat → Token → Token}
    (hg : ∀ path, Parser.KeepsKinds (g path)) :
    ∃ ts' trees',
      List.Forall₂ (fun a a' => a' = a ∨
        ∃ path, (Tree.list trees).at? path = some (.token a) ∧ a' = g path a) ts ts' ∧
      parse? (ts' ++ [e]) = some ⟨trees', []⟩ ∧
      Tree.list trees' = (Tree.list trees).rewrite g [] := by
  -- the program of the numbered tokens
  have hmap := map_restored_numbered (ts ++ [e])
  have hback := keepsKinds_restored (ts ++ [e])
  have hnodup := nodup_numbered (ts ++ [e])
  rw [← hmap] at h
  obtain ⟨hats, hhats, rfl⟩ := (parse_map hback).1 h
  obtain ⟨us, e', hnumbered⟩ : ∃ us e', numbered (ts ++ [e]) = us ++ [e'] :=
    ⟨_, _, List.mapIdx_concat⟩
  generalize restored (ts ++ [e]) = back at *
  rw [hnumbered] at hmap hhats hnodup
  rw [List.map_append] at hmap
  obtain ⟨rfl, hend⟩ := List.append_inj' hmap rfl
  cases hend
  have hus : ∀ a ∈ us, a.kind ≠ .eof :=
    fun a ha => hback.kind a ▸ hts _ (List.mem_map_of_mem ha)
  rw [hback.kind] at he
  have hsub : (Tree.list hats).tokens.Subperm us := by
    rw [Tree.tokens, Tree.tokensIn_eq]
    exact (derives_of_parse_append hus he hhats).subperm
  have honce : (Tree.list hats).tokens.Nodup := by
    obtain ⟨l, hperm, hl⟩ := hsub
    exact hperm.nodup_iff.1 (hl.nodup (List.Nodup.of_append_left hnodup))
  -- each number stands at one place, which tells how its token changes
  obtain ⟨mark, hmark, hcases⟩ := Tree.exists_change honce (fun path a => g path (back a)) back
  have hkeeps : Parser.KeepsKinds mark := by
    refine ⟨fun a => ?_, fun a => ?_⟩
    · obtain ha | ⟨path, ha⟩ := hcases a
      · rw [ha, hback.kind]
      · rw [hmark ha, (hg path).kind, hback.kind]
    · obtain ha | ⟨path, ha⟩ := hcases a
      · rw [ha, hback.literal]
      · rw [hmark ha, (hg path).literal, hback.literal]
  have hlast : mark e' = back e' := by
    refine (hcases e').resolve_right ?_
    rintro ⟨path, ha⟩
    exact hus e' (hsub.subset (Tree.mem_tokens_of_token ha)) he
  refine ⟨us.map mark, hats.map (Tree.mapTokens mark), ?_, ?_, ?_⟩
  · rw [List.forall₂_map_left_iff, List.forall₂_map_right_iff, List.forall₂_same]
    intro a _
    refine (hcases a).imp id ?_
    rintro ⟨path, ha⟩
    refine ⟨path, ?_, hmark ha⟩
    rw [← Tree.mapTokensIn_eq]
    show ((Tree.list hats).mapTokens back).at? path = _
    rw [Tree.at?_mapTokens, ha]
    rfl
  · have hparse := (parse_map hkeeps).2 ⟨hats, hhats, rfl⟩
    rwa [List.map_append, List.map_singleton, hlast] at hparse
  · rw [← Tree.mapTokensIn_eq, ← Tree.mapTokensIn_eq]
    show (Tree.list hats).mapTokens mark = ((Tree.list hats).mapTokens back).rewrite g []
    rw [← Tree.rewrite_const, ← Tree.rewrite_const back _ [], Tree.rewrite_rewrite]
    exact Tree.rewrite_congr (fun path a ha => hmark ha) _ _ rfl

end LoxLang
