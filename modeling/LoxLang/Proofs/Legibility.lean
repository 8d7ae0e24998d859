import LoxLang.Proofs.Printing

/-!
# Reading what is printed

`Sexp.tree` puts a tree together again from what was printed of it. It gives back every tree of the
right shape, but for the lines of its tokens (`tree_sexp`): a token that is not printed is of the
one kind that can stand in its slot and has the one text of that kind. What is printed of a tree
with finite numbers is a valid s-expression (`valid_sexp`), and the text of one is the text of no
other. So a printed text tells the tree (`printed_determines`).
-/

open LoxLang.Parser (Shaped)

namespace LoxLang

/-! ## Trees of s-expressions -/

/-- The forms that start with a word of their own. -/
def heads : List (String × Tree.Form) :=
  [("group", .grouping), ("=", .assign), ("call", .call), (".", .getField), ("=.", .setField),
    ("super", .superRef), (";", .exprStmt), ("print", .printStmt), ("var", .varDecl),
    ("block", .block), ("if", .ifElse), ("while", .whileLoop), ("fun", .funDecl),
    ("return", .returnStmt), ("class", .classDecl), ("and", .logical), ("or", .logical)]

namespace Sexp

/-- The word that an s-expression is. -/
def text? : Sexp → Option String
  | atom (.word s) => some s
  | _ => none

/-- The token of a word, on no line. -/
def token (s : Sexp) : Tree :=
  match s.text? with
  | some s => .token (.ofText (wordKind s) s .nil 0)
  | none => .null

/-- The parts of an s-expression. -/
def parts : Sexp → List Sexp
  | atom _ => []
  | node parts => parts

/-- The tree of a word that stands for itself. -/
def wordTree (s : String) : Tree :=
  match wordKind s with
  | .kwNil => .literal .null none
  | .kwTrue => .literal (.scalar (.bool true)) none
  | .kwFalse => .literal (.scalar (.bool false)) none
  | .kwThis => .thisRef (word s).token none
  | _ => if s = "<error>" then .null else .ident (word s).token none

/-- The tree of a form, from its parts and from their trees. A tree that is missing is null. -/
def formTree (head : Sexp) (ps : List Sexp) (ts : List Tree) : Tree :=
  let name (i : Nat) : Tree := (ps.getD i (word "")).token
  let tree (i : Nat) : Tree := ts.getD i .null
  match head.text?.bind fun s => heads.lookup s with
  | some .grouping => .grouping (tree 0)
  | some .assign => .assign (name 0) (tree 1) none
  | some .call => .call (tree 0) (word ")").token (.list (ts.drop 1))
  | some .getField => .getField (tree 0) (name 1)
  | some .setField => .setField (tree 0) (name 1) (tree 2)
  | some .superRef => .superRef (word "super").token (name 0) none
  | some .exprStmt => .exprStmt (tree 0)
  | some .printStmt => .printStmt (tree 0)
  | some .varDecl => .varDecl (name 0) (tree 1)
  | some .block => .block (.list ts)
  | some .ifElse => .ifElse (tree 0) (tree 1) (tree 2)
  | some .whileLoop => .whileLoop (tree 0) (tree 1)
  | some .funDecl =>
    .funDecl (name 0) (.list ((ps.getD 1 (word "")).parts.map token)) (.list (ts.drop 2))
  | some .returnStmt => .returnStmt (word "return").token (tree 0)
  | some .classDecl =>
    if (ps[1]?.bind text?) = some "<" then
      .classDecl (name 0) (.ident (name 2) none) (.list (ts.drop 3))
    else .classDecl (name 0) .null (.list (ts.drop 1))
  | some .logical => .logical (tree 0) head.token (tree 1)
  | _ =>
    if ts.length = 1 then .unary head.token (tree 0) else .binary (tree 0) head.token (tree 1)

mutual

/-- The tree that an s-expression was printed of, its tokens on no line. -/
def tree : Sexp → Tree
  | atom (.word s) => wordTree s
  | atom (.number x) => .literal (.scalar (.num x)) none
  | atom (.quoted s) => .literal (.scalar (.str s)) none
  | node [] => .null
  | node (head :: ps) => formTree head ps (trees ps)

/-- The trees of s-expressions. -/
def trees : List Sexp → List Tree
  | [] => []
  | p :: ps => tree p :: trees ps

end

theorem trees_eq (ps : List Sexp) : trees ps = ps.map tree := by
  induction ps with
  | nil => rfl
  | cons p ps ih => rw [trees, ih, List.map_cons]

end Sexp

variable {ts : List Tree}

namespace Tree

variable {kinds : List Token.Kind} {t : Tree}

/-- What is known of a slot for tokens that stand for no value. -/
theorem tokenSexp_eq (h : Parser.Holds Token.Scanned kinds t)
    (hkinds : kinds.all Token.Kind.isWritten = true) :
    ∃ s, t.tokenSexp = .word s ∧ wordKind s ∈ kinds ∧ s ≠ "<error>" ∧
      t.mapTokens Token.unplaced = (Sexp.word s).token ∧
      ((wordKind s).isShown = true → (Sexp.word s).Valid) := by
  obtain ⟨a, rfl, ha, hkind⟩ := h
  obtain ⟨s, line, rfl, herror, hvalid⟩ := ha.written (List.all_eq_true.1 hkinds _ hkind)
  exact ⟨s, rfl, hkind, herror, rfl, fun hshown => .atom (hvalid hshown)⟩

/-- The token in a slot can be read back. -/
theorem token_tokenSexp (h : Parser.Holds Token.Scanned kinds t)
    (hkinds : kinds.all Token.Kind.isWritten = true) :
    t.tokenSexp.token = t.mapTokens Token.unplaced := by
  obtain ⟨s, hs, -, -, htoken, -⟩ := tokenSexp_eq h hkinds
  rw [hs, htoken]

theorem valid_tokenSexp (h : Parser.Holds Token.Scanned kinds t)
    (hkinds : kinds.all Token.Kind.isShown = true) : t.tokenSexp.Valid := by
  have hwritten : kinds.all Token.Kind.isWritten = true := by
    rw [List.all_eq_true] at hkinds ⊢
    intro k hk
    have := hkinds k hk
    simp only [Token.Kind.isShown, Bool.and_eq_true] at this
    exact this.1.1
  obtain ⟨s, hs, hkind, -, -, hvalid⟩ := tokenSexp_eq h hwritten
  rw [hs]
  exact hvalid (List.all_eq_true.1 hkinds _ hkind)

/-- A token that is not printed has the text of its kind. -/
theorem token_hidden (word : String) {kind : Token.Kind} (hword : (word, kind) ∈ spellings)
    (h : Parser.Holds Token.Scanned [kind] t) :
    (Sexp.word word).token = t.mapTokens Token.unplaced := by
  have hnodup : (spellings.map Prod.snd).Nodup := by decide
  have htable : (spellings.all fun p => p.2.isWritten && p.2 != .identifier) = true := by decide
  have hkind := List.all_eq_true.1 htable _ hword
  simp only [Bool.and_eq_true, bne_iff_ne] at hkind
  obtain ⟨s, -, hs, -, htoken, -⟩ := tokenSexp_eq h (by simp [hkind.1])
  have hmem := mem_spellings (List.mem_singleton.1 hs) hkind.2
  cases List.inj_on_of_nodup_map hnodup hmem hword rfl
  exact htoken.symm

theorem trees_sexps (ih : ∀ t ∈ ts, t.sexp.tree = t.mapTokens Token.unplaced) :
    Sexp.trees (sexps ts) = mapTokensIn Token.unplaced ts := by
  rw [Sexp.trees_eq, sexps_eq, mapTokensIn_eq, List.map_map]
  exact List.map_congr_left ih

/-- Operators of the given kinds are read as one form. -/
theorem lookup_heads {found : Option Form} {s : String}
    (htable : (spellings.all fun p => !(kinds.contains p.2) || heads.lookup p.1 == found) = true)
    (hname : .identifier ∉ kinds) (h : wordKind s ∈ kinds) : heads.lookup s = found := by
  have hmem : (s, wordKind s) ∈ spellings :=
    mem_spellings rfl fun heq => hname (heq ▸ h)
  have hp := List.all_eq_true.1 htable _ hmem
  simpa [List.contains_iff_mem, h] using hp

/-- What was printed of a tree of the right shape tells it. -/
theorem tree_sexp {part : Parser.Part} (h : Shaped Token.Scanned part t) :
    t.sexp.tree = t.mapTokens Token.unplaced := by
  induction h with
  | @literal a ha hkind =>
    rcases literalValue_cases ha hkind with hv | ⟨b, hv⟩ | ⟨x, hv⟩ | ⟨s, hv, -⟩
    · rw [hv]
      rfl
    · rw [hv]
      cases b <;> rfl
    · rw [hv]
      rfl
    · rw [hv]
      rfl
  | always => rfl
  | grouping _ ih => exact congrArg grouping ih
  | exprStmt _ ih => exact congrArg exprStmt ih
  | printStmt _ ih => exact congrArg printStmt ih
  | unary hop _ ih =>
    obtain ⟨s, hs, hkind, -, htoken, -⟩ := tokenSexp_eq hop rfl
    have hnone : heads.lookup s = none := lookup_heads (by decide) (by decide) hkind
    rw [sexp, hs, mapTokens, htoken, ← ih]
    simp [Sexp.tree, Sexp.trees, Sexp.formTree, Sexp.word, Sexp.text?, hnone]
  | binary _ hop _ ihl ihr =>
    obtain ⟨s, hs, hkind, -, htoken, -⟩ := tokenSexp_eq hop rfl
    have hnone : heads.lookup s = none := lookup_heads (by decide) (by decide) hkind
    rw [sexp, hs, mapTokens, htoken, ← ihl, ← ihr]
    simp [Sexp.tree, Sexp.trees, Sexp.formTree, Sexp.word, Sexp.text?, hnone]
  | logical _ hop _ ihl ihr =>
    obtain ⟨s, hs, hkind, -, htoken, -⟩ := tokenSexp_eq hop rfl
    have hsome : heads.lookup s = some .logical := lookup_heads (by decide) (by decide) hkind
    rw [sexp, hs, mapTokens, htoken, ← ihl, ← ihr]
    simp [Sexp.tree, Sexp.trees, Sexp.formTree, Sexp.word, Sexp.text?, hsome]
  | ident hn =>
    obtain ⟨s, hs, hkind, herror, htoken, -⟩ := tokenSexp_eq hn rfl
    rw [sexp, hs, mapTokens, htoken]
    simp [Sexp.tree, Sexp.wordTree, Sexp.word, List.mem_singleton.1 hkind, herror]
  | assign hn _ ih => exact congrArg₂ (assign · · none) (token_tokenSexp hn rfl) ih
  | @call c p as _ hp _ ihc ihas =>
    show call c.sexp.tree (Sexp.word ")").token (list (Sexp.trees (sexps as))) =
      call (c.mapTokens _) (p.mapTokens _) (list (mapTokensIn _ as))
    rw [ihc, token_hidden ")" (by decide) hp, trees_sexps ihas]
  | getField _ hn ih => exact congrArg₂ getField ih (token_tokenSexp hn rfl)
  | @setField o n v _ hn _ iho ihv =>
    show setField o.sexp.tree n.tokenSexp.token v.sexp.tree =
      setField (o.mapTokens _) (n.mapTokens _) (v.mapTokens _)
    rw [iho, token_tokenSexp hn rfl, ihv]
  | thisRef hk => exact congrArg (thisRef · none) (token_hidden "this" (by decide) hk)
  | superRef hk hm =>
    exact congrArg₂ (superRef · · none) (token_hidden "super" (by decide) hk)
      (token_tokenSexp hm rfl)
  | block _ ih => exact congrArg (fun ts => block (list ts)) (trees_sexps ih)
  | ifOnly _ _ ihc iht => exact congrArg₂ (ifElse · · null) ihc iht
  | @ifElse c t e _ _ he ihc iht ihe =>
    rw [sexp, he.isNull_eq (by decide), mapTokens, ← ihc, ← iht, ← ihe]
    rfl
  | whileLoop _ _ ihc ihb => exact congrArg₂ whileLoop ihc ihb
  | emptyReturn hk => exact congrArg (returnStmt · null) (token_hidden "return" (by decide) hk)
  | returnStmt hk h ih =>
    rw [sexp, h.isNull_eq (by decide), mapTokens, ← ih, ← token_hidden "return" (by decide) hk]
    rfl
  | null => rfl
  | statement _ ih | funDecl _ ih => exact ih
  | emptyVar hn => exact congrArg (varDecl · null) (token_tokenSexp hn rfl)
  | varDecl hn h ih =>
    rw [sexp, h.isNull_eq (by decide), mapTokens, ← ih, ← token_tokenSexp hn rfl]
    rfl
  | @method n ps b hn hps _ ih =>
    have hparams : (ps.map tokenSexp).map Sexp.token = mapTokensIn Token.unplaced ps := by
      rw [mapTokensIn_eq, List.map_map]
      exact List.map_congr_left fun p hp => token_tokenSexp (hps p hp) rfl
    show funDecl n.tokenSexp.token (list ((ps.map tokenSexp).map Sexp.token))
        (list (Sexp.trees (sexps b))) =
      funDecl (n.mapTokens _) (list (mapTokensIn _ ps)) (list (mapTokensIn _ b))
    rw [token_tokenSexp hn rfl, hparams, trees_sexps ih]
  | @rootClass n ms hn hms ih =>
    -- The first method is a list, and no word that could announce a superclass.
    have hfirst : ((n.tokenSexp :: sexps ms)[1]?.bind Sexp.text?) ≠ some "<" := by
      cases ms with
      | nil => rintro ⟨⟩
      | cons m ms =>
        cases hms m List.mem_cons_self
        rintro ⟨⟩
    rw [sexp, mapTokens, ← token_tokenSexp hn rfl, mapTokens, ← trees_sexps ih]
    exact if_neg hfirst
  | @subclass n p ms hn hp _ ih =>
    show classDecl n.tokenSexp.token (ident p.tokenSexp.token none) (list (Sexp.trees (sexps ms))) =
      classDecl (n.mapTokens _) (ident (p.mapTokens _) none) (list (mapTokensIn _ ms))
    rw [token_tokenSexp hn rfl, token_tokenSexp hp rfl, trees_sexps ih]

/-! ## Validity -/

/-- The numbers in the tree are finite. -/
def FiniteNumbers (t : Tree) : Prop :=
  ∀ (path : List Nat) (x : Float) (serial : Option Nat),
    t.at? path = some (literal (scalar (.num x)) serial) → Decimal.isSpecial x.toBits = false

theorem FiniteNumbers.child (h : t.FiniteNumbers) (i : Nat) {u : Tree}
    (hu : t.children[i]? = some u) : u.FiniteNumbers := by
  intro path x serial hx
  refine h (path ++ [i]) x serial ?_
  rw [at?_append_singleton, hu]
  exact hx

theorem FiniteNumbers.items (h : (list ts).FiniteNumbers) : ∀ t ∈ ts, t.FiniteNumbers := by
  intro t ht
  obtain ⟨i, hi⟩ := List.mem_iff_getElem?.1 ht
  exact h.child i hi

/-- What holds at most the given number of levels can be searched for other numbers. -/
def finiteWithin : Nat → Tree → Bool
  | 0, _ => false
  | room + 1, t =>
    (match t with
      | literal (scalar (.num x)) _ => !Decimal.isSpecial x.toBits
      | _ => true) && t.children.all (finiteWithin room)

/-- The check of the numbers in a tree is sound. -/
theorem finiteNumbers_of_finiteWithin {room : Nat} (h : t.finiteWithin room = true) :
    t.FiniteNumbers := by
  induction room generalizing t with
  | zero => cases h
  | succ room ih =>
    obtain ⟨hhere, hbelow⟩ := Bool.and_eq_true_iff.1 h
    intro path x serial hx
    cases path using List.reverseRecOn with
    | nil =>
      cases hx
      simpa using hhere
    | append_singleton path i =>
      rw [at?_append_singleton] at hx
      obtain ⟨u, hu, hx⟩ := Option.bind_eq_some_iff.1 hx
      exact ih (List.all_eq_true.1 hbelow u (List.mem_of_getElem? hu)) path x serial hx

theorem valid_form {head : String} {ps : List Sexp} (hhead : isWordText head = true)
    (hps : ∀ p ∈ ps, p.Valid) : (Sexp.form head ps).Valid :=
  .node (List.forall_mem_cons.2 ⟨.atom hhead, hps⟩)

theorem valid_sexps (h : (list ts).FiniteNumbers) (ih : ∀ t ∈ ts, t.FiniteNumbers → t.sexp.Valid) :
    ∀ p ∈ sexps ts, p.Valid := by
  rw [sexps_eq, List.forall_mem_map]
  exact fun t ht => ih t ht (h.items t ht)

/-- What is printed of a tree of the right shape with finite numbers is valid. -/
theorem valid_sexp {part : Parser.Part} (h : Shaped Token.Scanned part t) :
    t.FiniteNumbers → t.sexp.Valid := by
  have hone {p : Sexp} (hp : p.Valid) : ∀ q ∈ [p], q.Valid := List.forall_mem_singleton.2 hp
  have hcons {p : Sexp} {ps : List Sexp} (hp : p.Valid) (hps : ∀ q ∈ ps, q.Valid) :
      ∀ q ∈ p :: ps, q.Valid := List.forall_mem_cons.2 ⟨hp, hps⟩
  induction h with
  | @literal a ha hkind =>
    intro hfinite
    rcases literalValue_cases ha hkind with hv | ⟨b, hv⟩ | ⟨x, hv⟩ | ⟨s, hv, hs⟩
    · rw [hv]
      exact .atom rfl
    · rw [hv]
      cases b <;> exact .atom rfl
    · rw [hv] at hfinite ⊢
      exact .atom (hfinite [] x none rfl)
    · rw [hv]
      exact .atom hs
  | always => exact fun _ => .atom rfl
  | grouping _ ih | exprStmt _ ih | printStmt _ ih =>
    exact fun hf => valid_form rfl (hone (ih (hf.child 0 rfl)))
  | unary hop _ ih =>
    exact fun hf => .node (hcons (valid_tokenSexp hop rfl) (hone (ih (hf.child 1 rfl))))
  | binary _ hop _ ihl ihr | logical _ hop _ ihl ihr =>
    exact fun hf => .node (hcons (valid_tokenSexp hop rfl)
      (hcons (ihl (hf.child 0 rfl)) (hone (ihr (hf.child 2 rfl)))))
  | ident hn => exact fun _ => valid_tokenSexp hn rfl
  | assign hn _ ih =>
    exact fun hf => valid_form rfl (hcons (valid_tokenSexp hn rfl) (hone (ih (hf.child 1 rfl))))
  | call _ _ _ ihc ihas =>
    exact fun hf => valid_form rfl
      (hcons (ihc (hf.child 0 rfl)) (valid_sexps (hf.child 2 rfl) ihas))
  | getField _ hn ih =>
    exact fun hf => valid_form rfl (hcons (ih (hf.child 0 rfl)) (hone (valid_tokenSexp hn rfl)))
  | setField _ hn _ iho ihv =>
    exact fun hf => valid_form rfl (hcons (iho (hf.child 0 rfl))
      (hcons (valid_tokenSexp hn rfl) (hone (ihv (hf.child 2 rfl)))))
  | thisRef _ => exact fun _ => .atom rfl
  | superRef _ hm | emptyVar hm => exact fun _ => valid_form rfl (hone (valid_tokenSexp hm rfl))
  | block _ ih => exact fun hf => valid_form rfl (valid_sexps (hf.child 0 rfl) ih)
  | ifOnly _ _ ihc iht | whileLoop _ _ ihc iht =>
    exact fun hf => valid_form rfl (hcons (ihc (hf.child 0 rfl)) (hone (iht (hf.child 1 rfl))))
  | ifElse _ _ he ihc iht ihe =>
    intro hf
    rw [sexp, he.isNull_eq (by decide)]
    exact valid_form rfl (hcons (ihc (hf.child 0 rfl))
      (hcons (iht (hf.child 1 rfl)) (hone (ihe (hf.child 2 rfl)))))
  | emptyReturn _ => exact fun _ => valid_form rfl (List.forall_mem_nil _)
  | returnStmt _ h ih =>
    intro hf
    rw [sexp, h.isNull_eq (by decide)]
    exact valid_form rfl (hone (ih (hf.child 1 rfl)))
  | null => exact fun _ => .atom rfl
  | statement _ ih | funDecl _ ih => exact ih
  | varDecl hn h ih =>
    intro hf
    rw [sexp, h.isNull_eq (by decide)]
    exact valid_form rfl (hcons (valid_tokenSexp hn rfl) (hone (ih (hf.child 1 rfl))))
  | method hn hps _ ih =>
    intro hf
    refine valid_form rfl (hcons (valid_tokenSexp hn rfl)
      (hcons (.node ?_) (valid_sexps (hf.child 2 rfl) ih)))
    rw [List.forall_mem_map]
    exact fun p hp => valid_tokenSexp (hps p hp) rfl
  | rootClass hn _ ih =>
    exact fun hf => valid_form rfl
      (hcons (valid_tokenSexp hn rfl) (valid_sexps (hf.child 2 rfl) ih))
  | subclass hn hp _ ih =>
    exact fun hf => valid_form rfl (hcons (valid_tokenSexp hn rfl)
      (hcons (.atom rfl) (hcons (valid_tokenSexp hp rfl) (valid_sexps (hf.child 2 rfl) ih))))

end Tree

/-- The text that a tree is printed as. -/
def Tree.printedText? (t : Tree) : Option String :=
  match t.printed with
  | .ok (.scalar (.str s)) => some s
  | _ => none

theorem Tree.printed_eq {t : Tree} {text : String} (h : t.printedText? = some text) :
    t.printed = .ok (.str text) := by
  unfold printedText? at h
  split at h
  · next hprinted =>
    cases h
    exact hprinted
  · cases h

/-- The program is one statement that has finite numbers and is printed as the text. -/
def printsAs (source text : String) : Bool :=
  match parse? (scan source).finish with
  | some ⟨[t], _⟩ => t.finiteWithin 20 && t.printedText? == some text
  | _ => false

theorem exists_of_printsAs {source text : String} (h : printsAs source text = true) :
    ∃ parsed t, parse? (scan source).finish = some parsed ∧ t ∈ parsed.statements ∧
      t.FiniteNumbers ∧ t.printed = .ok (.str text) := by
  unfold printsAs at h
  split at h
  · next t problems hparse =>
    obtain ⟨hfinite, htext⟩ := Bool.and_eq_true_iff.1 h
    exact ⟨_, t, hparse, List.mem_singleton.2 rfl, Tree.finiteNumbers_of_finiteWithin hfinite,
      Tree.printed_eq (beq_iff_eq.1 htext)⟩
  · cases h

/-- A printed statement tells the tree but for the lines of its tokens. Whatever two sources were
parsed, and whatever was reported, two of their statements that have finite numbers and the same
text are the same tree, up to the lines of the tokens. -/
theorem printed_determines {source source' : String} {parsed parsed' : Parsed} {t u : Tree}
    {text : String} (h : parse? (scan source).finish = some parsed)
    (h' : parse? (scan source').finish = some parsed') (ht : t ∈ parsed.statements)
    (hu : u ∈ parsed'.statements) (hfinite : t.FiniteNumbers) (hfinite' : u.FiniteNumbers)
    (hprinted : t.printed = .ok (.str text)) (hprinted' : u.printed = .ok (.str text)) :
    t.mapTokens Token.unplaced = u.mapTokens Token.unplaced := by
  have hshaped := shaped_parse_of (fun _ => scanned_finish) h t ht
  have hshaped' := shaped_parse_of (fun _ => scanned_finish) h' u hu
  have htext {t : Tree} (hs : Shaped Token.Scanned .declaration t)
      (hp : t.printed = .ok (.str text)) : t.sexp.text = text := by
    cases Tree.shows_render hs Tree.maxDepth _ hp
    rfl
  have hsame : t.sexp = u.sexp :=
    (Tree.valid_sexp hshaped hfinite).eq_of_text_eq (Tree.valid_sexp hshaped' hfinite')
      ((htext hshaped hprinted).trans (htext hshaped' hprinted').symm)
  rw [← Tree.tree_sexp hshaped, ← Tree.tree_sexp hshaped', hsame]

/-- A class on one line and on four, with two spellings of a number, a string that looks like a
form, and a statement that cannot be read. -/
theorem printed_determines_class :
    let source := "class A < B \x7b m(x) \x7b x = ; return this.f(x, 0.10) or \"(p q)\"; \x7d \x7d"
    let source' := "class A < B \x7b\n m(x) \x7b\n  y = ; return this.f(x, 0.1) or \"(p q)\";\n \x7d\x7d"
    let text := "(class A < B (fun m (x) <error> (return (or (call (. this f) x 0.1) \"(p q)\"))))"
    ∃ parsed parsed' t u, parse? (scan source).finish = some parsed ∧
      parse? (scan source').finish = some parsed' ∧ t ∈ parsed.statements ∧
      u ∈ parsed'.statements ∧ t.FiniteNumbers ∧ u.FiniteNumbers ∧
      t.printed = .ok (.str text) ∧ u.printed = .ok (.str text) ∧
      t.mapTokens Token.unplaced = u.mapTokens Token.unplaced := by
  intro source source' text
  have hsource : printsAs source text = true := by decide +kernel
  have hsource' : printsAs source' text = true := by decide +kernel
  obtain ⟨parsed, t, h, ht, hfinite, hprinted⟩ := exists_of_printsAs hsource
  obtain ⟨parsed', u, h', hu, hfinite', hprinted'⟩ := exists_of_printsAs hsource'
  exact ⟨parsed, parsed', t, u, h, h', ht, hu, hfinite, hfinite', hprinted, hprinted',
    printed_determines h h' ht hu hfinite hfinite' hprinted hprinted'⟩

end LoxLang
