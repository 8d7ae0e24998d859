import LoxLang.Proofs.Renaming
import LoxLang.Proofs.Sexps

/-!
# What is printed

A tree of the parser is printed as an s-expression: its operator or the name of its form, and then
its parts (`Tree.sexp`). Names, signs and keywords are the words. The text that `Tree.render` gives
is the text of that s-expression (`shows_render`), if the tree is not too deep for it.
-/

open LoxLang.Parser (Shaped)

namespace LoxLang

/-! ## Words -/

/-- Tokens that are written in one way only. -/
def spellings : List (String × Token.Kind) :=
  signs.map (fun sign => (String.ofList sign.1, sign.2)) ++ Token.Kind.keywords

/-- The kind of token that a word is. -/
def wordKind (s : String) : Token.Kind :=
  (spellings.lookup s).getD .identifier

/-- The token was cut from a program or stands at the end of one. -/
def Token.Scanned (a : Token) : Prop :=
  ∃ kind s value line, a = .ofText kind s value line ∧ (kind ≠ .eof → Lexeme s.toList kind value)

/-- The token without its place. -/
def Token.unplaced (a : Token) : Token :=
  { a with line := .int 0 }

variable {a : Token} {t : Tree} {ts : List Tree} {K : Token → Prop}

theorem scanned_finish {source : String} (h : a ∈ (scan source).finish) : a.Scanned := by
  unfold Scan.finish at h
  rw [Array.mem_toList_iff, Array.mem_push] at h
  rcases h with h | rfl
  · obtain ⟨s, kind, value, line, rfl, hlexeme⟩ := lexeme_of_mem_scan h
    exact ⟨kind, s, value, line, rfl, fun _ => hlexeme⟩
  · exact ⟨.eof, "", .nil, _, rfl, fun h => absurd rfl h⟩

section Words

variable {s : String} {kind : Token.Kind} {value : Scalar}

/-- A lexeme is written in the one way of its kind, or it is a name, a number or a string. -/
theorem Lexeme.spelled (h : Lexeme s.toList kind value) (hname : kind ≠ .identifier)
    (hnumber : kind ≠ .number) (hstring : kind ≠ .string) :
    (s, kind) ∈ spellings ∧ value = .nil := by
  generalize htext : s.toList = text at h
  cases h with
  | sign hsign =>
    refine ⟨List.mem_append_left _ (List.mem_map.2 ⟨_, hsign, ?_⟩), rfl⟩
    rw [← htext, String.ofList_toList]
  | word =>
    rw [← htext, String.ofList_toList] at hname ⊢
    exact ⟨List.mem_append_right _ (Token.Kind.mem_keywords rfl hname), rfl⟩
  | whole | decimal => exact absurd rfl hnumber
  | string => exact absurd rfl hstring

theorem valid_of_spelling (h : (s, kind) ∈ spellings) (hopen : kind ≠ .leftParen)
    (hclose : kind ≠ .rightParen) : (Atom.word s).Valid := by
  have htable : (spellings.all fun p =>
      p.2 == .leftParen || p.2 == .rightParen || isWordText p.1) = true := by decide
  have hp := List.all_eq_true.1 htable _ h
  simpa [Atom.Valid, hopen, hclose] using hp

/-- An identifier is a word that can be read back. -/
theorem valid_of_isWord (h : Lexeme s.toList .identifier value) : (Atom.word s).Valid := by
  obtain ⟨⟨c, rest, hs, hc, hrest⟩, -⟩ := h.isWord
  have hplain : ∀ x ∈ s.toList, isAlphanumeric x = true := by
    rw [hs]
    exact List.forall_mem_cons.2 ⟨by rw [isAlphanumeric, hc, Bool.true_or], hrest⟩
  refine Atom.valid_word_iff.2
    ⟨fun h => ?_, fun x hx => isPlain_of_class (hplain x hx) rfl rfl rfl rfl, ?_⟩
  · rw [h] at hs
    cases hs
  · rw [hs]
    refine Decimal.Numeral.take_eq_none ?_ (Piece.not_isDigit_of_isAlpha hc)
    rintro rfl
    cases hc

theorem wordKind_of_spelling (h : (s, kind) ∈ spellings) : wordKind s = kind := by
  have htable : (spellings.all fun p => wordKind p.1 == p.2) = true := by decide
  simpa using List.all_eq_true.1 htable _ h

theorem mem_spellings (h : wordKind s = kind) (hkind : kind ≠ .identifier) :
    (s, kind) ∈ spellings := by
  unfold wordKind at h
  cases hl : spellings.lookup s with
  | none =>
    rw [hl] at h
    exact absurd h.symm hkind
  | some k =>
    rw [hl] at h
    obtain ⟨before, after, he, -⟩ := List.lookup_eq_some_iff.1 hl
    simp [he, ← h]

theorem wordKind_of_isWord (h : Lexeme s.toList .identifier value) : wordKind s = .identifier := by
  have htable : (spellings.all fun p =>
      !(p.1.toList.head?.any isAlpha) || Token.Kind.ofWord p.1 != .identifier) = true := by decide
  obtain ⟨⟨c, rest, hs, hc, -⟩, -⟩ := h.isWord
  by_contra hkind
  have hp := List.all_eq_true.1 htable _ (mem_spellings rfl hkind)
  simp [hs, hc, h.ofWord_eq] at hp

/-- The value of a number lexeme is a number. -/
theorem Lexeme.value_of_number {text : List Char} (h : Lexeme text .number value) :
    ∃ x, value = .num x := by
  generalize hkind : Token.Kind.number = kind at h
  cases h with
  | sign hsign =>
    subst hkind
    simp [signs] at hsign
  | word =>
    have hmem := Token.Kind.mem_keywords hkind.symm (by decide)
    simp [Token.Kind.keywords] at hmem
  | whole | decimal => exact ⟨_, rfl⟩
  | string => cases hkind

/-- The value of a string lexeme is a text without quotes. -/
theorem Lexeme.value_of_string {text : List Char} (h : Lexeme text .string value) :
    ∃ s, value = .str s ∧ '"' ∉ s.toList := by
  generalize hkind : Token.Kind.string = kind at h
  cases h with
  | sign hsign =>
    subst hkind
    simp [signs] at hsign
  | word =>
    have hmem := Token.Kind.mem_keywords hkind.symm (by decide)
    simp [Token.Kind.keywords] at hmem
  | whole | decimal => cases hkind
  | string hinside => exact ⟨_, rfl, by rwa [String.toList_ofList]⟩

end Words

/-- What a literal holds. -/
theorem literalValue_cases (h : a.Scanned) (hkind : a.kind ∈ Parser.literalKinds) :
    Parser.literalValue a = .null ∨ (∃ b, Parser.literalValue a = .scalar (.bool b)) ∨
      (∃ x, Parser.literalValue a = .scalar (.num x)) ∨
      ∃ s, Parser.literalValue a = .scalar (.str s) ∧ '"' ∉ s.toList := by
  obtain ⟨kind, s, value, line, rfl, hlexeme⟩ := h
  simp only [Parser.literalKinds, List.mem_cons, List.not_mem_nil, or_false] at hkind
  rcases hkind with hkind | hkind | hkind | hkind | hkind <;> cases hkind
  · exact .inr (.inl ⟨false, rfl⟩)
  · exact .inr (.inl ⟨true, rfl⟩)
  · exact .inl rfl
  · obtain ⟨x, rfl⟩ := (hlexeme (by decide)).value_of_number
    exact .inr (.inr (.inl ⟨x, rfl⟩))
  · obtain ⟨s, rfl, hs⟩ := (hlexeme (by decide)).value_of_string
    exact .inr (.inr (.inr ⟨s, rfl, hs⟩))

/-- The kinds of the tokens that stand for no value. -/
def Token.Kind.isWritten : Token.Kind → Bool
  | number | string | eof => false
  | _ => true

/-- The kinds of the tokens that are printed. -/
def Token.Kind.isShown (kind : Token.Kind) : Bool :=
  kind.isWritten && kind != .leftParen && kind != .rightParen

theorem not_lexeme_error {kind : Token.Kind} {value : Scalar} :
    ¬Lexeme "<error>".toList kind value := by
  intro h
  have htable : (signs.all fun sign => sign.1 != "<error>".toList) = true := by decide
  rcases Lexeme.of_symbol h rfl with hsign | ⟨inside, hinside⟩
  · have hne := List.all_eq_true.1 htable _ hsign
    exact absurd rfl (bne_iff_ne.1 hne)
  · cases hinside

/-- What is known of a token that stands for no value. -/
theorem Token.Scanned.written (h : a.Scanned) (hkind : a.kind.isWritten = true) :
    ∃ s line, a = .ofText (wordKind s) s .nil line ∧ s ≠ "<error>" ∧
      ((wordKind s).isShown = true → (Atom.word s).Valid) := by
  obtain ⟨kind, s, value, line, rfl, hlexeme⟩ := h
  have hne {other : Token.Kind} (hother : other.isWritten = false) : kind ≠ other := by
    rintro rfl
    exact absurd hkind (Bool.eq_false_iff.1 hother)
  have hl := hlexeme (hne rfl)
  have herror : s ≠ "<error>" := by
    rintro rfl
    exact not_lexeme_error hl
  by_cases hname : kind = .identifier
  · subst hname
    refine ⟨s, line, ?_, herror, fun _ => valid_of_isWord hl⟩
    rw [wordKind_of_isWord hl, hl.isWord.2]
  · obtain ⟨hs, rfl⟩ := hl.spelled hname (hne rfl) (hne rfl)
    refine ⟨s, line, ?_, herror, fun hshown => ?_⟩
    · rw [wordKind_of_spelling hs]
    · rw [wordKind_of_spelling hs] at hshown
      refine valid_of_spelling hs ?_ ?_ <;> rintro rfl <;> cases hshown

/-! ## Trees as s-expressions -/

namespace Sexp

/-- A word as an s-expression. -/
def word (s : String) : Sexp :=
  atom (.word s)

/-- A list that starts with a word. -/
def form (head : String) (parts : List Sexp) : Sexp :=
  node (word head :: parts)

end Sexp

namespace Tree

/-- The word for the token in a slot. -/
def tokenSexp : Tree → Sexp
  | token ⟨_, .scalar (.str s), _, _⟩ => .word s
  | _ => .word ""

/-- The s-expression of a value. -/
def literalSexp : Tree → Sexp
  | scalar (.num x) => .atom (.number x)
  | scalar (.str s) => .atom (.quoted s)
  | t => .word t.valueText

/-- The superclass in an s-expression, if there is one. -/
def parentSexps : Tree → List Sexp
  | ident n _ => [.word "<", n.tokenSexp]
  | _ => []

mutual

/-- What is printed of a tree. -/
def sexp : Tree → Sexp
  | literal v _ => v.literalSexp
  | unary op r => .node [op.tokenSexp, sexp r]
  | binary l op r => .node [op.tokenSexp, sexp l, sexp r]
  | logical l op r => .node [op.tokenSexp, sexp l, sexp r]
  | grouping e => .form "group" [sexp e]
  | ident n _ => n.tokenSexp
  | assign n v _ => .form "=" [n.tokenSexp, sexp v]
  | call c _ (list items) => .form "call" (sexp c :: sexps items)
  | getField o n => .form "." [sexp o, n.tokenSexp]
  | setField o n v => .form "=." [sexp o, n.tokenSexp, sexp v]
  | thisRef .. => .word "this"
  | superRef _ m _ => .form "super" [m.tokenSexp]
  | exprStmt e => .form ";" [sexp e]
  | printStmt e => .form "print" [sexp e]
  | varDecl n i => .form "var" (n.tokenSexp :: if i.isNull then [] else [sexp i])
  | block (list items) => .form "block" (sexps items)
  | ifElse c t e => .form "if" (sexp c :: sexp t :: if e.isNull then [] else [sexp e])
  | whileLoop c b => .form "while" [sexp c, sexp b]
  | funDecl n (list ps) (list b) =>
    .form "fun" (n.tokenSexp :: .node (ps.map tokenSexp) :: sexps b)
  | returnStmt _ v => .form "return" (if v.isNull then [] else [sexp v])
  | classDecl n p (list ms) => .form "class" (n.tokenSexp :: (p.parentSexps ++ sexps ms))
  | _ => .word "<error>"

/-- The s-expressions of trees. -/
def sexps : List Tree → List Sexp
  | [] => []
  | t :: ts => sexp t :: sexps ts

end

theorem sexps_eq (ts : List Tree) : sexps ts = ts.map sexp := by
  induction ts with
  | nil => rfl
  | cons t ts ih => rw [sexps, ih, List.map_cons]

theorem text_literalSexp (t : Tree) : t.literalSexp.text = t.literalText := by
  cases t with
  | scalar s => cases s <;> rfl
  | _ => rfl

/-- The computation gives the text, if it gives anything. -/
def Shows (x : Except Fault Json) (s : String) : Prop :=
  ∀ j, x = .ok j → j = .str s

/-- The computation gives the texts, if it gives anything. -/
def ShowsAll (x : Except Fault (List Json)) (ss : List String) : Prop :=
  ∀ js, x = .ok js → js = ss.map .str

section Shows

variable {x : Except Fault Json} {xs : Except Fault (List Json)} {s s' : String} {ss : List String}

theorem shows_ok (s : String) : Shows (.ok (.str s)) s := by
  rintro j ⟨⟩
  rfl

theorem Shows.bind {f : Json → Except Fault Json} (hx : Shows x s) (hf : Shows (f (.str s)) s') :
    Shows (x >>= f) s' := by
  intro j hj
  cases hr : x with
  | error e =>
    rw [hr] at hj
    cases hj
  | ok i =>
    rw [hr] at hj
    cases hx i hr
    exact hf j hj

theorem ShowsAll.bind {f : List Json → Except Fault Json} (hx : ShowsAll xs ss)
    (hf : Shows (f (ss.map .str)) s') : Shows (xs >>= f) s' := by
  intro j hj
  cases hr : xs with
  | error e =>
    rw [hr] at hj
    cases hj
  | ok js =>
    rw [hr] at hj
    cases hx js hr
    exact hf j hj

theorem textsOf_map (ss : List String) : textsOf (ss.map .str) = .ok ss := by
  induction ss with
  | nil => rfl
  | cons s ss ih =>
    rw [List.map_cons, Json.str, textsOf, ih]
    rfl

theorem shows_inTexts (head : String) (ss : List String) :
    Shows (inParens (.str head) (ss.map .str)) ("(" ++ " ".intercalate (head :: ss) ++ ")") := by
  have htexts := textsOf_map (head :: ss)
  rw [List.map_cons] at htexts
  unfold inParens
  rw [htexts]
  exact shows_ok _

/-- The head of a class is one text where its superclass is given. -/
theorem text_subclass (name parent : String) (methods : List Sexp) :
    "(" ++ " ".intercalate ("class" :: (name ++ " < " ++ parent) :: Sexp.texts methods) ++ ")" =
      (Sexp.form "class" (.word name :: .word "<" :: .word parent :: methods)).text := by
  have hhead : name ++ " < " ++ parent = name ++ " " ++ "<" ++ " " ++ parent := by
    simp [String.append_assoc]
  show _ = "(" ++ " ".intercalate ("class" :: name :: "<" :: parent :: Sexp.texts methods) ++ ")"
  simp only [hhead, String.intercalate_cons_cons, String.intercalate_cons_append,
    String.append_assoc]

theorem shows_inParens (head : String) (ps : List Sexp) :
    Shows (inParens (.str head) ((Sexp.texts ps).map .str)) (Sexp.form head ps).text := by
  have htexts := textsOf_map (head :: Sexp.texts ps)
  rw [List.map_cons] at htexts
  unfold inParens
  rw [htexts]
  exact shows_ok _

theorem shows_partOf {room : Nat} (ht : ∀ s, t ≠ scalar (.str s)) (h : Shows x s) :
    Shows (partOf t room x) s := by
  unfold partOf
  split
  · next s' => exact absurd rfl (ht s')
  · split
    · nofun
    · exact h

end Shows

section Render

variable {K : Token → Prop} {kinds : List Token.Kind}

theorem lexemeOf_eq (h : Parser.Holds Token.Scanned kinds t) :
    ∃ s, t.lexemeOf = .ok (.str s) ∧ t.tokenSexp = .word s := by
  obtain ⟨_, rfl, ⟨kind, s, value, line, rfl, -⟩, -⟩ := h
  exact ⟨s, rfl, rfl⟩

theorem lexemesOf_eq (h : ∀ t ∈ ts, Parser.Holds Token.Scanned kinds t) :
    ∃ ss : List String,
      lexemesOf ts = .ok (ss.map .str) ∧ ts.map tokenSexp = ss.map .word := by
  induction ts with
  | nil => exact ⟨[], rfl, rfl⟩
  | cons t ts ih =>
    obtain ⟨ht, hts⟩ := List.forall_mem_cons.1 h
    obtain ⟨s, hs, hword⟩ := lexemeOf_eq ht
    obtain ⟨ss, hss, hwords⟩ := ih hts
    refine ⟨s :: ss, ?_, by rw [List.map_cons, List.map_cons, hword, hwords]⟩
    rw [lexemesOf, hs, hss]
    rfl

end Render

end Tree

theorem Parser.Shaped.ne_text {part : Parser.Part} (h : Shaped K part t) (s : String) :
    t ≠ .scalar (.str s) := by
  induction h with
  | statement _ ih | funDecl _ ih => exact ih
  | _ => nofun

/-- Only a declaration can be null. -/
theorem Parser.Shaped.isNull_eq {part : Parser.Part} (h : Shaped K part t)
    (hpart : part ≠ .declaration) : t.isNull = false := by
  cases h with
  | null | statement | emptyVar | varDecl | funDecl | rootClass | subclass =>
    exact absurd rfl hpart
  | _ => rfl

namespace Tree

section Render

variable {K : Token → Prop} {kinds : List Token.Kind}

theorem paramsPart_map (ss : List String) :
    paramsPart (ss.map .str) = .ok (.str (Sexp.node (ss.map .word)).text) := by
  have htexts : Sexp.texts (ss.map .word) = ss := by
    rw [Sexp.texts_eq, List.map_map]
    exact List.map_id ss
  rw [paramsPart, textsOf_map, Sexp.text, htexts]
  rfl

/-- The parts of a tree are printed one by one. -/
theorem shows_renderParts {part : Parser.Part} (room : Nat) (h : ∀ t ∈ ts, Shaped K part t)
    (ih : ∀ t ∈ ts, ∀ room, Shows (t.render room) t.sexp.text) :
    ShowsAll (renderParts ts room) (Sexp.texts (sexps ts)) := by
  induction ts with
  | nil =>
    rintro js ⟨⟩
    rfl
  | cons t ts ihs =>
    obtain ⟨ht, hts⟩ := List.forall_mem_cons.1 h
    obtain ⟨iht, ihts⟩ := List.forall_mem_cons.1 ih
    have hhead : Shows (partOf t room _) _ := shows_partOf ht.ne_text (iht (room - 2))
    have htail := ihs hts ihts
    intro js hjs
    rw [renderParts] at hjs
    cases hr : partOf t room (t.render (room - 2)) with
    | error e =>
      rw [hr] at hjs
      cases hjs
    | ok j =>
      rw [hr] at hjs
      cases hrs : renderParts ts room with
      | error e =>
        rw [hrs] at hjs
        cases hjs
      | ok rest =>
        rw [hrs] at hjs
        cases hjs
        rw [hhead j hr, htail rest hrs]
        rfl

/-- What is printed of a tree of the right shape is its s-expression. -/
theorem shows_render {part : Parser.Part} (h : Shaped Token.Scanned part t) :
    ∀ room, Shows (t.render room) t.sexp.text := by
  have hpart {part : Parser.Part} {t : Tree} (h : Shaped Token.Scanned part t)
      (ih : ∀ room, Shows (t.render room) t.sexp.text) (room : Nat) :
      Shows (partOf t room (t.render (room - 2))) t.sexp.text :=
    shows_partOf h.ne_text (ih _)
  induction h with
  | literal | always =>
    intro room
    rw [sexp, text_literalSexp, render]
    exact shows_ok _
  | grouping h ih | exprStmt h ih | printStmt h ih =>
    intro room
    rw [render]
    exact (hpart h ih room).bind (shows_inParens _ [_])
  | unary hop h ih =>
    intro room
    obtain ⟨s, hs, hword⟩ := lexemeOf_eq hop
    rw [render, sexp, hs, hword]
    exact (hpart h ih room).bind (shows_inParens s [_])
  | binary hl hop hr ihl ihr | logical hl hop hr ihl ihr =>
    intro room
    obtain ⟨s, hs, hword⟩ := lexemeOf_eq hop
    rw [render, sexp, hs, hword]
    exact (hpart hl ihl room).bind ((hpart hr ihr room).bind (shows_inParens s [_, _]))
  | ident hn =>
    intro room
    obtain ⟨s, hs, hword⟩ := lexemeOf_eq hn
    rw [render, sexp, hs, hword]
    exact shows_ok s
  | assign hn h ih =>
    intro room
    obtain ⟨s, hs, hword⟩ := lexemeOf_eq hn
    rw [render, sexp, hs, hword]
    exact (hpart h ih room).bind (shows_inParens "=" [.word s, _])
  | call hc _ has ihc ihas =>
    intro room
    rw [render]
    exact (hpart hc ihc room).bind ((shows_renderParts room has ihas).bind
      (shows_inParens "call" (_ :: _)))
  | getField ho hn ih =>
    intro room
    obtain ⟨s, hs, hword⟩ := lexemeOf_eq hn
    rw [render, sexp, hs, hword]
    exact (hpart ho ih room).bind (shows_inParens "." [_, .word s])
  | setField ho hn hv iho ihv =>
    intro room
    obtain ⟨s, hs, hword⟩ := lexemeOf_eq hn
    rw [render, sexp, hs, hword]
    exact (hpart ho iho room).bind ((hpart hv ihv room).bind
      (shows_inParens "=." [_, .word s, _]))
  | thisRef _ =>
    intro room
    rw [render]
    exact shows_ok "this"
  | superRef _ hn | emptyVar hn =>
    intro room
    obtain ⟨s, hs, hword⟩ := lexemeOf_eq hn
    rw [render, sexp, hs, hword]
    exact shows_inParens _ [.word s]
  | block hs ih =>
    intro room
    rw [render]
    exact (shows_renderParts room hs ih).bind (shows_inParens "block" _)
  | ifOnly hc ht ihc iht | whileLoop hc ht ihc iht =>
    intro room
    rw [render]
    exact (hpart hc ihc room).bind ((hpart ht iht room).bind (shows_inParens _ [_, _]))
  | ifElse hc ht he ihc iht ihe =>
    intro room
    rw [render, sexp, he.isNull_eq nofun]
    exact (hpart hc ihc room).bind ((hpart ht iht room).bind ((hpart he ihe room).bind
      (shows_inParens "if" [_, _, _])))
  | emptyReturn _ =>
    intro room
    rw [render]
    exact shows_inParens "return" []
  | returnStmt _ h ih =>
    intro room
    rw [render, sexp, h.isNull_eq nofun]
    exact (hpart h ih room).bind (shows_inParens "return" [_])
  | null =>
    intro room
    exact shows_ok "<error>"
  | statement _ ih | funDecl _ ih => exact ih
  | varDecl hn h ih =>
    intro room
    obtain ⟨s, hs, hword⟩ := lexemeOf_eq hn
    rw [render, sexp, hs, hword, h.isNull_eq nofun]
    exact (hpart h ih room).bind (shows_inParens "var" [.word s, _])
  | method hn hps hb ih =>
    intro room
    obtain ⟨s, hs, hword⟩ := lexemeOf_eq hn
    obtain ⟨ss, hss, hwords⟩ := lexemesOf_eq hps
    rw [render, sexp, hs, hword, hwords, asItems]
    dsimp only [bind, Except.bind]
    rw [hss]
    dsimp only
    rw [paramsPart_map]
    exact (shows_renderParts room hb ih).bind (shows_inParens "fun" (.word s :: .node _ :: _))
  | rootClass hn hms ih =>
    intro room
    obtain ⟨s, hs, hword⟩ := lexemeOf_eq hn
    rw [render, sexp, hs, hword]
    exact (shows_renderParts room hms ih).bind (shows_inParens "class" (.word s :: _))
  | @subclass _ _ methods hn hp hms ih =>
    intro room
    obtain ⟨s, hs, hword⟩ := lexemeOf_eq hn
    obtain ⟨_, rfl, ⟨kind, p, value, line, rfl, -⟩, -⟩ := hp
    rw [render, sexp, hs, hword]
    have hhead := shows_inTexts "class" ((s ++ " < " ++ p) :: Sexp.texts (sexps methods))
    rw [text_subclass] at hhead
    exact (shows_renderParts room hms ih).bind hhead

end Render

end Tree

end LoxLang
