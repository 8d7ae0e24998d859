import LoxLang.Proofs.Joining
import LoxLang.Proofs.Respelling

/-!
# Another name for a local variable

A variable of a block or a function can be given another name. If the slots where its name stands
(`Tree.refersTo`) are all changed to a name that the program does not
have, then the program is still accepted, every use is resolved as before, and a run of it shows the
same (`rename_variable`). Uses of the same name that were resolved to other scopes stay as they are.
-/

namespace LoxLang

variable {x : String}

/-! ## Renaming -/

/-- The text of the token is the given one. -/
def Token.spells (a : Token) (s : String) : Bool :=
  match a.lexeme with
  | .scalar (.str t) => t == s
  | _ => false

variable {a : Token} {s y : String} {room : Nat} {n : Name}

theorem Token.spells_iff : a.spells s = true ↔ a.lexeme = .str s := by
  unfold spells
  split
  · next h => simp [h, Json.str]
  · next h => simpa [Json.str] using h s

/-- A name of the scope is changed from `x` to `y`. -/
def renameAt (root : Tree) (site : Site) (x y : String) (path : List Nat) (a : Token) : Token :=
  if root.refersTo site path && a.spells x then { a with lexeme := .str y } else a

/-- The program with a variable of the scope renamed. -/
def renamed (root : Tree) (site : Site) (x y : String) : Tree :=
  root.rewrite (renameAt root site x y) []

/-- A block or a function that declares the name, and only as a variable. -/
structure IsVariable (root : Tree) (site : Site) (x : String) : Prop where
  isLocal : site.opening.isHidden = false
  declared : ∃ path a, root.declaresIn site path = true ∧ root.at? path = some (.token a) ∧
    a.kind = .identifier ∧ a.lexeme = .str x
  only : ∀ path a, root.definesIn site path = true → root.at? path = some (.token a) →
    a.lexeme ≠ .str x

/-- The paths into a tree that is no deeper than a number of levels, each in front of a path. -/
def Tree.paths : Nat → List Nat → Tree → List (List Nat)
  | 0, _, _ => []
  | room + 1, path, t => path :: t.children.zipIdx.flatMap fun (u, i) => paths room (i :: path) u

/-- Each place of a tree is among its paths. -/
theorem Tree.mem_paths : ∀ {t u : Tree} (before : List Nat) {path : List Nat},
    t.fits room = true → t.at? path = some u → path ++ before ∈ t.paths room before := by
  induction room with
  | zero => exact nofun
  | succ room ih =>
    intro t u before path hfits hat
    rw [fits, List.all_eq_true] at hfits
    rw [paths, List.mem_cons]
    cases path using List.reverseRecOn with
    | nil => exact .inl rfl
    | append_singleton path i =>
      rw [at?_append_singleton] at hat
      obtain ⟨v, hv, hat⟩ := Option.bind_eq_some_iff.1 hat
      refine .inr (List.mem_flatMap.2 ⟨(v, i), List.mk_mem_zipIdx_iff_getElem?.2 hv, ?_⟩)
      rw [List.append_assoc]
      exact ih (i :: before) (hfits v (List.mem_of_getElem? hv)) hat

/-- The token at the end of a path has the property. -/
def Tree.tokenAt (root : Tree) (path : List Nat) (p : Token → Bool) : Bool :=
  match root.at? path with
  | some (token a) => p a
  | _ => false

/-- Whether a scope declares a name only as a variable, in a program of a number of levels. -/
def isVariable (root : Tree) (site : Site) (x : String) (room : Nat) : Bool :=
  !site.opening.isHidden && root.fits room &&
    (root.paths room []).any (fun path => root.declaresIn site path &&
      root.tokenAt path fun a => a.kind == .identifier && a.spells x) &&
    (root.paths room []).all fun path => !root.definesIn site path ||
      !root.tokenAt path (Token.spells · x)

/-- The check of a variable is sound. -/
theorem IsVariable.of_isVariable {root : Tree} {site : Site}
    (h : isVariable root site x room = true) : IsVariable root site x := by
  unfold isVariable at h
  simp only [Bool.and_eq_true, Bool.not_eq_true', List.any_eq_true, List.all_eq_true] at h
  obtain ⟨⟨⟨hlocal, hfits⟩, path, -, hdeclares, htoken⟩, honly⟩ := h
  refine ⟨hlocal, ⟨path, ?_⟩, fun path a hdefines hat hlexeme => ?_⟩
  · unfold Tree.tokenAt at htoken
    split at htoken
    · next a hat =>
      rw [Bool.and_eq_true, beq_iff_eq] at htoken
      exact ⟨a, hdeclares, hat, htoken.1, Token.spells_iff.1 htoken.2⟩
    · cases htoken
  · have hmem := Tree.mem_paths [] hfits hat
    rw [List.append_nil] at hmem
    have hnone := honly path hmem
    rw [hdefines, Tree.tokenAt, hat] at hnone
    dsimp only at hnone
    rw [Token.spells_iff.2 hlexeme] at hnone
    cases hnone

/-! ## Names -/

namespace Name

/-- A name that is the same as a text is that text. -/
theorem eq_ofText (h : (n == ofText s) = true) : n = ofText s := by
  obtain ⟨datum⟩ := n
  obtain ⟨key, hkey, htext⟩ := Scalar.agrees_iff.1 h
  cases htext
  cases datum with
  | str =>
    cases hkey
    rfl
  | num x =>
    unfold Scalar.key? Scalar.numberKey? at hkey
    dsimp only at hkey
    split at hkey
    · split at hkey <;> cases hkey
    · split at hkey <;> cases hkey
  | nil | bool | int => cases hkey

/-- The two names change places. -/
def exchanged (x y : String) (n : Name) : Name :=
  if n == ofText x then ofText y else if n == ofText y then ofText x else n

section Exchanged

variable {x y : String}

theorem ofText_beq_self (s : String) : (ofText s == ofText s) = true := by
  rw [ofText_beq, beq_self_eq_true]

theorem exchanged_first : exchanged x y (ofText x) = ofText y :=
  if_pos (ofText_beq_self x)

theorem exchanged_second : exchanged x y (ofText y) = ofText x := by
  unfold exchanged
  split
  · next h => exact eq_ofText h
  · exact if_pos (ofText_beq_self y)

theorem exchanged_other (hx : n ≠ ofText x) (hy : n ≠ ofText y) : exchanged x y n = n := by
  unfold exchanged
  rw [if_neg fun h => hx (eq_ofText h), if_neg fun h => hy (eq_ofText h)]

theorem exchanged_exchanged (n : Name) : exchanged x y (exchanged x y n) = n := by
  by_cases hx : n = ofText x
  · rw [hx, exchanged_first, exchanged_second]
  · by_cases hy : n = ofText y
    · rw [hy, exchanged_second, exchanged_first]
    · rw [exchanged_other hx hy, exchanged_other hx hy]

/-- An exchange keeps names apart. -/
theorem exchanged_beq (a b : Name) : (exchanged x y a == exchanged x y b) = (a == b) := by
  have himp {a b : Name} (h : (a == b) = true) :
      (exchanged x y a == exchanged x y b) = true := by
    by_cases hx : a = ofText x
    · subst hx
      rw [eq_ofText (PartialEquivBEq.symm h), exchanged_first]
      exact ofText_beq_self y
    by_cases hy : a = ofText y
    · subst hy
      rw [eq_ofText (PartialEquivBEq.symm h), exchanged_second]
      exact ofText_beq_self x
    have hbx : b ≠ ofText x := by
      rintro rfl
      exact hx (eq_ofText h)
    have hby : b ≠ ofText y := by
      rintro rfl
      exact hy (eq_ofText h)
    rwa [exchanged_other hx hy, exchanged_other hbx hby]
  rw [Bool.eq_iff_iff]
  refine ⟨fun h => ?_, himp⟩
  have hback := himp h
  rwa [exchanged_exchanged, exchanged_exchanged] at hback

end Exchanged

end Name

/-- The names are no keywords. -/
structure AreNames (x y : String) : Prop where
  first : Token.Kind.ofWord x = .identifier
  second : Token.Kind.ofWord y = .identifier

theorem AreNames.exchanged_keyword (h : AreNames x y) {word : String}
    (hw : Token.Kind.ofWord word ≠ .identifier) :
    Name.exchanged x y (.ofText word) = .ofText word := by
  have hne {s : String} (hs : Token.Kind.ofWord s = .identifier) :
      Name.ofText word ≠ Name.ofText s := by
    rintro ⟨⟩
    exact hw hs
  exact Name.exchanged_other (hne h.first) (hne h.second)

/-- Two names change places in the marked scopes, and no line changes. -/
def Change.exchange {x y : String} (h : AreNames x y) : Change where
  line := Eq
  name := Name.exchanged x y
  name_beq := Name.exchanged_beq
  name_this := h.exchanged_keyword (by decide)
  name_super := h.exchanged_keyword (by decide)

/-- A program without the second name can have it in place of the first one. -/
theorem avoids_exchange (h : AreNames x y) : (Change.exchange h).Avoids (· ≠ .ofText y) where
  congr {a b} hab ha := by
    rintro rfl
    exact ha (Name.eq_ofText hab)
  fresh {a} ha := by
    by_cases hx : a = .ofText x
    · subst hx
      exact .inr fun hn => hn Name.exchanged_first
    · exact .inl (Name.exchanged_other hx ha)
  back := Name.exchanged_exchanged
  this := by
    rintro ⟨⟩
    exact absurd h.second (by decide)
  super := by
    rintro ⟨⟩
    exact absurd h.second (by decide)

/-! ## Renamed programs -/

section Renamed

variable {root : Tree} {site : Site} {x y : String} {path : List Nat} {name t : Tree}

/-- A slot that holds no name of the scope is left as it is. -/
theorem renameAt_other (h : root.refersTo site path = false) (a : Token) :
    renameAt root site x y path a = a := by
  rw [renameAt, h, Bool.false_and]
  rfl

variable (hnames : AreNames x y)

/-- A name that is not the one that is changed. -/
theorem nameLike_same {marked : Bool} (hy : (Tree.token a).Uses (· ≠ .ofText y))
    (hx : marked = true → a.lexeme ≠ .str x) :
    NameLike (.exchange hnames) marked (.token a) (.token a) := by
  refine ⟨a, a, rfl, rfl, ?_, rfl⟩
  obtain ⟨s, hs, hne⟩ := hy a (by simp [Tree.tokens])
  rw [Token.name_of_lexeme hs]
  cases marked with
  | false => rfl
  | true =>
    have hother : Name.ofText s ≠ .ofText x := by
      rintro ⟨⟩
      exact hx rfl hs
    exact congrArg Except.ok (Name.exchanged_other hother hne).symm

/-- The name in a slot of the scope is changed, and the one in another slot is not. -/
theorem nameLike_renameAt (hy : (Tree.token a).Uses (· ≠ .ofText y)) :
    NameLike (.exchange hnames) (root.refersTo site path) (.token a)
      (.token (renameAt root site x y path a)) := by
  by_cases hx : a.spells x = true
  · cases hslot : root.refersTo site path with
    | false =>
      rw [renameAt_other hslot]
      exact nameLike_same hnames hy nofun
    | true =>
      rw [renameAt, hslot, hx]
      refine ⟨a, _, rfl, rfl, ?_, rfl⟩
      rw [Token.name_of_lexeme (Token.spells_iff.1 hx)]
      exact congrArg Except.ok Name.exchanged_first.symm
  · have hsame : renameAt root site x y path a = a := by
      rw [renameAt, Bool.not_eq_true _ |>.mp hx, Bool.and_false]
      rfl
    rw [hsame]
    exact nameLike_same hnames hy fun _ he => hx (Token.spells_iff.2 he)

/-- The renamed program is like the program before, under the mark of the one scope. -/
theorem keepsNames_renameAt (hx : IsVariable root site x) (hy : root.Uses (· ≠ .ofText y)) :
    KeepsNames (.exchange hnames) root site (renameAt root site x y) := by
  have uses {path : List Nat} {a : Token} (ha : root.at? path = some (.token a)) :
      (Tree.token a).Uses (· ≠ .ofText y) :=
    fun b hb => hy b (Tree.mem_tokens_of_at? ha hb)
  refine ⟨hx.isLocal, fun {_ _ i a} ht h hu => ?_, fun ha => nameLike_renameAt hnames (uses ha),
    fun {_ _ a} ht h hu => ?_, fun {_ _ a word marked} ht h hu hword hw => ?_⟩
  · rw [renameAt_other (Tree.refersTo_other ht h i)]
    exact ⟨a, a, rfl, rfl, rfl, rfl, rfl⟩
  · -- what is declared as a function or a class is not the variable
    rw [renameAt_other (Tree.refersTo_other ht (Tree.namesVariable_declaration h) 0)]
    refine nameLike_same hnames (uses (Tree.at?_cons ht 0 hu)) fun hmark => ?_
    rw [← Tree.definesIn_declaration ht h] at hmark
    exact hx.only _ a hmark (Tree.at?_cons ht 0 hu)
  · rw [renameAt_other (Tree.refersTo_other ht h 0)]
    refine nameLike_same hnames (uses (Tree.at?_cons ht 0 hu)) fun _ hlexeme => ?_
    cases hword.symm.trans hlexeme
    exact hw hnames.first

end Renamed

/-! ## Sources -/

/-- The second token is the first one, or it has the name `y` where the first one has `x`. -/
def Renames (x y : String) (a a' : Token) : Prop :=
  a' = a ∨ a.kind = .identifier ∧ a.lexeme = .str x ∧ a' = { a with lexeme := .str y }

section Sources

variable {source : String} {q : Program} {site : Site} {x y : String}

theorem renameAt_cases (root : Tree) (site : Site) (x y : String) (path : List Nat) (a : Token) :
    renameAt root site x y path a = a ∨
      a.lexeme = .str x ∧ renameAt root site x y path a = { a with lexeme := .str y } := by
  unfold renameAt
  split
  · next h =>
    rw [Bool.and_eq_true] at h
    exact .inr ⟨Token.spells_iff.1 h.2, rfl⟩
  · exact .inl rfl

theorem keepsKinds_renameAt (root : Tree) (site : Site) (x y : String) (path : List Nat) :
    Parser.KeepsKinds (renameAt root site x y path) := by
  refine ⟨fun a => ?_, fun a => ?_⟩
  · rcases renameAt_cases root site x y path a with h | ⟨-, h⟩ <;> rw [h]
  · rcases renameAt_cases root site x y path a with h | ⟨-, h⟩ <;> rw [h]

theorem line_renameAt (root : Tree) (site : Site) (x y : String) (path : List Nat) (a : Token) :
    (renameAt root site x y path a).line = a.line := by
  rcases renameAt_cases root site x y path a with h | ⟨-, h⟩ <;> rw [h]

namespace StandsFor

theorem mem_tokens_list (h : StandsFor source q) {a : Token}
    (ha : a ∈ (Tree.list q.resolved).tokens) : a ∈ (scan source).tokens := by
  rw [Tree.tokens, Tree.tokensIn_eq] at ha
  obtain ⟨t, ht, ha⟩ := List.mem_flatMap.1 ha
  exact h.mem_tokens t ht a ha

theorem mem_tokens_parsed (h : StandsFor source q) {a : Token}
    (ha : a ∈ (Tree.list q.parsed).tokens) : a ∈ (scan source).tokens := by
  rw [Tree.tokens, Tree.tokensIn_eq] at ha
  obtain ⟨t, ht, ha⟩ := List.mem_flatMap.1 ha
  exact mem_tokens_of_parse h.parsed t ht a ha

/-- A variable has the text of a name. -/
theorem lexeme_variable (h : StandsFor source q) (hx : IsVariable (.list q.resolved) site x) :
    Lexeme x.toList .identifier .nil := by
  obtain ⟨path, a, -, hat, hkind, hspelled⟩ := hx.declared
  obtain ⟨s, kind, value, line, rfl, hlexeme⟩ :=
    lexeme_of_mem_scan (h.mem_tokens_list (Tree.mem_tokens_of_token hat))
  cases hkind
  cases hspelled
  rwa [hlexeme.isWord.2] at hlexeme

end StandsFor

theorem Lexeme.ofWord_eq {name : String} {value : Scalar}
    (h : Lexeme name.toList .identifier value) : Token.Kind.ofWord name = .identifier := by
  have hkind := h.kind_of_isWord h.isWord.1
  rw [String.ofList_toList] at hkind
  exact hkind.symm

namespace StandsFor

/-- A token of the source that has the text of a name is one. -/
theorem kind_of_lexeme (ha : a ∈ (scan source).tokens) (hlexeme : a.lexeme = .str x)
    (hx : Lexeme x.toList .identifier .nil) : a.kind = .identifier := by
  obtain ⟨s, kind, value, line, rfl, hs⟩ := lexeme_of_mem_scan ha
  cases hlexeme
  have hkind := hs.kind_of_isWord hx.isWord.1
  rw [String.ofList_toList, hx.ofWord_eq] at hkind
  exact hkind

theorem uses_fresh (h : StandsFor source q)
    (hfresh : ∀ a ∈ (scan source).tokens, a.lexeme ≠ .str y) :
    (Tree.list q.resolved).Uses (· ≠ .ofText y) := by
  intro a ha
  have hmem := h.mem_tokens_list ha
  obtain ⟨s, kind, value, line, rfl, -⟩ := lexeme_of_mem_scan hmem
  refine ⟨s, rfl, ?_⟩
  rintro ⟨⟩
  exact hfresh _ hmem rfl

/-- The statements of the renamed program are like those before. -/
theorem statementLike_renamed (h : StandsFor source q)
    (hx : IsVariable (.list q.resolved) site x) (hnames : AreNames x y)
    (hfresh : ∀ a ∈ (scan source).tokens, a.lexeme ≠ .str y) :
    List.Forall₂ (StatementLike (.exchange hnames)) q.resolved
      (Tree.rewriteIn (renameAt (.list q.resolved) site x y) [] 0 q.resolved) := by
  have hformed : Everywhere (fun c u => Formed c.role u) ⟨.body, []⟩ (.list q.resolved) :=
    h.accepted.fine.imp fun _ _ hf => hf.formed
  have hlike := (keepsNames_renameAt hnames hx (h.uses_fresh hfresh)).treeLike hformed [] rfl
  rw [List.forall₂_iff_zip]
  cases hlike with
  | body length items =>
    refine ⟨length, fun {t t'} hmem => ⟨items hmem, ?_⟩⟩
    obtain ⟨i, -, rfl⟩ := Tree.mem_zip_rewriteIn hmem
    exact (Tree.firstLine_rewrite (line_renameAt _ _ _ _) _ _).symm

/-- There is a source for the renamed program, with the same tokens but for the name. -/
theorem exists_renamed (h : StandsFor source q) (hx : IsVariable (.list q.resolved) site x)
    (hy : Lexeme y.toList .identifier .nil)
    (hfresh : ∀ a ∈ (scan source).tokens, a.lexeme ≠ .str y) :
    ∃ source' q', StandsFor source' q' ∧
      q'.resolved = Tree.rewriteIn (renameAt (.list q.resolved) site x y) [] 0 q.resolved ∧
      List.Forall₂ (Renames x y) (scan source).tokens.toList (scan source').tokens.toList := by
  have hlexeme := h.lexeme_variable hx
  have hnames : AreNames x y := ⟨hlexeme.ofWord_eq, hy.ofWord_eq⟩
  -- the tokens and the statements with the name changed
  have hparsed := h.parsed
  rw [Scan.finish_eq] at hparsed
  obtain ⟨ts, trees, htokens, hparse, htrees⟩ := parse_rewrite kind_ne_eof_of_mem_scan rfl hparsed
    (keepsKinds_renameAt (.list q.resolved) site x y)
  have hrenames : List.Forall₂ (Renames x y) (scan source).tokens.toList ts := by
    refine htokens.imp fun a a' ha => ?_
    obtain rfl | ⟨path, hat, rfl⟩ := ha
    · exact .inl rfl
    · refine (renameAt_cases _ site x y path a).imp id fun ⟨hspelled, hchanged⟩ => ?_
      exact ⟨kind_of_lexeme (h.mem_tokens_parsed (Tree.mem_tokens_of_token hat)) hspelled hlexeme,
        hspelled, hchanged⟩
  have hrespells : List.Forall₂ Token.Respells (scan source).tokens.toList ts := by
    refine hrenames.imp fun a a' ha => ?_
    exact ha.imp id fun ⟨hkind, _, ha⟩ => ⟨hkind, y, hy, ha⟩
  obtain ⟨source', hproblems, hfinish⟩ := exists_respelled h.scanned hrespells
  rw [← hfinish] at hparse
  -- the resolver gives each use the depth that it had
  obtain ⟨s, hpasses, hs⟩ := h.accepted.passes
  have hlike := h.statementLike_renamed hx hnames hfresh
  obtain ⟨s', hpasses', hstate⟩ := hpasses.resolved.alike (avoids_exchange hnames) rfl
    (hlike.imp fun _ _ hlike => hlike.1) (Tree.Uses.items (h.uses_fresh hfresh))
    (stateLike_start _ _)
  have hbare : trees.map Tree.bare =
      (Tree.rewriteIn (renameAt (.list q.resolved) site x y) [] 0 q.resolved).map Tree.bare := by
    have hsame : (Tree.list q.parsed).bare = (Tree.list q.resolved).bare := by
      rw [Tree.bare, Tree.bare, Tree.bareIn_eq, Tree.bareIn_eq, hpasses.bare_eq]
    have hlist := congrArg Tree.bare htrees
    rw [Tree.bare_rewrite, hsame, ← Tree.bare_rewrite] at hlist
    rw [← Tree.bareIn_eq, ← Tree.bareIn_eq]
    exact Tree.list.inj hlist
  have hnone : s'.problems = #[] := by
    have hsize := hstate.problems
    rw [hs] at hsize
    exact Array.eq_empty_of_size_eq_zero (Nat.le_zero.1 hsize)
  obtain ⟨hstatements, hresolved⟩ := resolve_of_passes (hpasses'.congr hbare)
    (fun t ht => (wellFormed_of_parse hparse t ht).formed.isNull_eq) hnone
  refine ⟨source', ⟨trees, _⟩, ⟨hproblems, hparse, hstatements, hresolved⟩, rfl, ?_⟩
  rw [Scan.finish_eq] at hfinish
  rwa [(List.append_inj' hfinish rfl).1]

/-- A run of the renamed program shows the same. -/
theorem showSame_renamed (h : StandsFor source q) (hx : IsVariable (.list q.resolved) site x)
    (hnames : AreNames x y) (hfresh : ∀ a ∈ (scan source).tokens, a.lexeme ≠ .str y)
    {source' : String} {q' : Program} (h' : StandsFor source' q')
    (hq : q'.resolved = Tree.rewriteIn (renameAt (.list q.resolved) site x y) [] 0 q.resolved)
    (detail : Nat) (clock : Clock) :
    ShowSame (Session.run source) (Session.run source') (.start detail clock)
      (.start detail clock) := by
  obtain ⟨m, ht, hrun⟩ := h.run_eq (s := .start detail clock) rfl rfl
  obtain ⟨m', ht', hrun'⟩ := h'.run_eq (s := .start detail clock) rfl rfl
  have hm := (machineLike_initial (.exchange hnames) detail clock).traced ht ht'
  have hstart : SessionLike (.exchange hnames) ⟨m, {}⟩ ⟨m', {}⟩ :=
    ⟨hm, ⟨rfl, rfl, .nil, .nil⟩⟩
  have hlike := runsAlike_execute (h.statementLike_renamed hx hnames hfresh) hstart ht.current_eq
    ht'.current_eq
  have hshow := hlike.showSame fun _ _ hline => hline.symm
  unfold ShowSame at hshow ⊢
  rw [hrun, hrun', hq]
  exact hshow

end StandsFor

end Sources

/-- The depth that the resolver has found for a use. -/
def Tree.depth? : Tree → Option Nat
  | ident _ depth | assign _ _ depth | thisRef _ depth | superRef _ _ depth => depth
  | _ => none

theorem Tree.depth?_rewrite (f : List Nat → Token → Token) (path : List Nat) (t : Tree) :
    (t.rewrite f path).depth? = t.depth? := by
  cases t <;> rfl

/-- A local variable can be given another name. For a program that is accepted, a block or a
function that declares `x` as a variable or a parameter, and a name `y` that the program does not
have, there is a source with the same tokens, but `x` is changed to `y` in the declarations of the
variable and in the uses that were resolved to it. It is accepted, each use has the depth that it
had, and running it shows the same. -/
theorem rename_variable {source : String} (h : Clean source) {site : Site} {x y : String}
    (hx : IsVariable (.list (resolvedOf source)) site x) (hy : Lexeme y.toList .identifier .nil)
    (hfresh : ∀ a ∈ (scan source).tokens, a.lexeme ≠ .str y) (detail : Nat) (clock : Clock) :
    ∃ source', Clean source' ∧
      Tree.list (resolvedOf source') = renamed (.list (resolvedOf source)) site x y ∧
      (∀ path, ((Tree.list (resolvedOf source')).at? path).map Tree.depth? =
        ((Tree.list (resolvedOf source)).at? path).map Tree.depth?) ∧
      List.Forall₂ (Renames x y) (scan source).tokens.toList (scan source').tokens.toList ∧
      ShowSame (Session.run source) (Session.run source') (.start detail clock)
        (.start detail clock) := by
  have hq := h.standsFor
  obtain ⟨source', q', h', hresolved, htokens⟩ := hq.exists_renamed hx hy hfresh
  have hprogram : Tree.list (resolvedOf source') =
      renamed (.list (resolvedOf source)) site x y := by
    rw [h'.resolvedOf_eq, hresolved]
    rfl
  refine ⟨source', h'.clean, hprogram, fun path => ?_, htokens, ?_⟩
  · rw [hprogram, renamed, Tree.at?_rewrite, Option.map_map]
    congr 1
    funext t
    exact Tree.depth?_rewrite _ path t
  · have hnames : AreNames x y := ⟨(hq.lexeme_variable hx).ofWord_eq, hy.ofWord_eq⟩
    exact hq.showSame_renamed hx hnames hfresh h' hresolved detail clock

/-- A name that is declared outside and in a block, where a function uses it before and another one
after the declaration, and that is declared again in an inner block. -/
def shadowed : String :=
  "var a = \"outer\"; \x7b fun f() \x7b print a; \x7d var a = \"inner\"; " ++
    "fun g(b) \x7b a = b; print a; \x7d f(); g(\"new\"); print a; " ++
    "\x7b var a = nil; print a; \x7d \x7d"

/-- In the block the name is declared once and used three times. -/
theorem rename_variable_shadowed :
    let root := Tree.list (resolvedOf shadowed)
    let site : Site := ⟨.block, 0, [1]⟩
    (root.tokens.countP (Token.spells · "a") = 8 ∧
      (renamed root site "a" "c").tokens.countP (Token.spells · "c") = 4) ∧
    ∃ source', Clean source' ∧ Tree.list (resolvedOf source') = renamed root site "a" "c" ∧
      (∀ path, ((Tree.list (resolvedOf source')).at? path).map Tree.depth? =
        (root.at? path).map Tree.depth?) ∧
      List.Forall₂ (Renames "a" "c") (scan shadowed).tokens.toList (scan source').tokens.toList ∧
      let s := Session.start 0 (.still 0)
      ShowSame (Session.run shadowed) (Session.run source') s s := by
  have hname : Lexeme "c".toList .identifier .nil :=
    @Lexeme.word 'c' [] (by decide) (List.forall_mem_nil _)
  obtain ⟨hclean, hvariable, hfresh, hcount⟩ : Clean shadowed ∧
      isVariable (.list (resolvedOf shadowed)) ⟨.block, 0, [1]⟩ "a" 10 = true ∧
      (∀ a ∈ (scan shadowed).tokens.toList, a.spells "c" = false) ∧
      (Tree.list (resolvedOf shadowed)).tokens.countP (Token.spells · "a") = 8 ∧
      (renamed (.list (resolvedOf shadowed)) ⟨.block, 0, [1]⟩ "a" "c").tokens.countP
        (Token.spells · "c") = 4 := by
    decide +kernel
  refine ⟨hcount, rename_variable hclean (.of_isVariable hvariable) hname (fun a ha hc => ?_) 0 _⟩
  have hspells := hfresh a (Array.mem_toList_iff.2 ha)
  rw [Token.spells_iff.2 hc] at hspells
  cases hspells

end LoxLang
