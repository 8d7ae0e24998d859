import LoxLang.Proofs.Lexemes

/-!
# Names spelled in another way

If names in a text are replaced by other names, then all the rest stays as it is: what follows a
token is the same, or it starts with a letter before and after (`Swaps`), so that the longest token
that can stand at a place is still the longest one (`Longest.swap`). The text with the names
replaced is thus cut at the same places (`Cut.respell`). So for each choice of new names there is a
source with just these tokens (`exists_respelled`).
-/

namespace LoxLang

variable {s : List Char} {parts parts' : List Part} {source : String}

/-! ## Names -/

/-- The text is a name. -/
def IsWord (text : List Char) : Prop :=
  ∃ c rest, text = c :: rest ∧ isAlpha c = true ∧ ∀ x ∈ rest, isAlphanumeric x = true

theorem Lexeme.isWord {text : List Char} {value : Scalar} (h : Lexeme text .identifier value) :
    IsWord text ∧ value = .nil := by
  generalize hk : Token.Kind.identifier = kind at h
  cases h with
  | sign h =>
    subst hk
    simp [signs] at h
  | word hc hrest => exact ⟨⟨_, _, rfl, hc, hrest⟩, rfl⟩
  | whole | decimal | string => cases hk

theorem IsWord.not_mem_feed {text : List Char} (h : IsWord text) : '\n' ∉ text := by
  obtain ⟨c, rest, rfl, hc, hrest⟩ := h
  rw [List.mem_cons, not_or]
  refine ⟨?_, fun hn => absurd (hrest _ hn) (by decide)⟩
  rintro rfl
  revert hc
  decide

/-! ## What follows a token -/

/-- The texts are the same up to a place where both end, or where both go on with a letter. -/
def Swaps (rest rest' : List Char) : Prop :=
  ∃ same more more', rest = same ++ more ∧ rest' = same ++ more' ∧
    (more = [] ∧ more' = [] ∨
      ∃ a us a' us', more = a :: us ∧ more' = a' :: us' ∧ isAlpha a = true ∧ isAlpha a' = true)

namespace Swaps

variable {rest rest' : List Char}

theorem append (h : Swaps rest rest') (text : List Char) :
    Swaps (text ++ rest) (text ++ rest') := by
  obtain ⟨same, more, more', rfl, rfl, h⟩ := h
  exact ⟨text ++ same, more, more', by simp, by simp, h⟩

theorem words {text text' : List Char} (h : IsWord text) (h' : IsWord text')
    (rest rest' : List Char) : Swaps (text ++ rest) (text' ++ rest') := by
  obtain ⟨a, us, rfl, ha, -⟩ := h
  obtain ⟨a', us', rfl, ha', -⟩ := h'
  exact ⟨[], _, _, rfl, rfl, .inr ⟨a, _, a', _, rfl, rfl, ha, ha'⟩⟩

theorem eq_nil (h : Swaps [] rest') : rest' = [] := by
  obtain ⟨same, more, more', hrest, rfl, h⟩ := h
  obtain ⟨rfl, rfl⟩ := List.append_eq_nil_iff.1 hrest.symm
  rcases h with ⟨-, rfl⟩ | ⟨a, us, a', us', hmore, -⟩
  · rfl
  · cases hmore

/-- Both texts start with the same character, if the first one starts with no letter. -/
theorem head?_eq (h : Swaps rest rest') (hrest : ∀ c ∈ rest.head?, isAlpha c = false) :
    rest'.head? = rest.head? := by
  obtain ⟨same, more, more', rfl, rfl, h⟩ := h
  cases same with
  | cons c same => rfl
  | nil =>
    rcases h with ⟨rfl, rfl⟩ | ⟨a, us, a', us', rfl, -, ha, -⟩
    · rfl
    · rw [hrest a rfl] at ha
      cases ha

end Swaps

/-! ## The longest token -/

section Longest

variable {text rest rest' : List Char} {kind : Token.Kind} {value : Scalar}

theorem isAlpha_of_mem_signs (h : (text, kind) ∈ signs) : ∀ c ∈ text, isAlpha c = false := by
  have hall : (signs.all fun sign => sign.1.all (!isAlpha ·)) = true := by decide
  intro c hc
  have hc' := List.all_eq_true.1 (List.all_eq_true.1 hall _ h) c hc
  rwa [Bool.not_eq_true'] at hc'

/-- A lexeme that has a letter is a word or a string. -/
theorem Lexeme.of_letter (h : Lexeme text kind value) {a : Char} (hmem : a ∈ text)
    (ha : isAlpha a = true) :
    IsWord text ∨ ∃ inside, text = '"' :: (inside ++ ['"']) ∧ '"' ∉ inside := by
  have hdigit {digits : List Char} (hd : ∀ x ∈ digits, Decimal.isDigit x = true) : a ∉ digits := by
    intro hmem
    have hd := hd a hmem
    rw [Piece.not_isDigit_of_isAlpha ha] at hd
    cases hd
  cases h with
  | sign h =>
    rw [isAlpha_of_mem_signs h a hmem] at ha
    cases ha
  | word hc hrest => exact .inl ⟨_, _, rfl, hc, hrest⟩
  | whole _ hd => exact absurd hmem (hdigit hd)
  | decimal _ _ hd =>
    obtain ⟨hdigits, hfraction⟩ := List.forall_mem_append.1 hd
    rcases List.mem_append.1 hmem with hmem | hmem
    · exact absurd hmem (hdigit hdigits)
    · rcases List.mem_cons.1 hmem with rfl | hmem
      · cases ha
      · exact absurd hmem (hdigit hfraction)
  | string hinside => exact .inr ⟨_, rfl, hinside⟩

/-- A lexeme that starts with no letter and no digit is a sign or a string. -/
theorem Lexeme.of_symbol {c : Char} (h : Lexeme (c :: text) kind value)
    (hc : isAlphanumeric c = false) :
    (c :: text, kind) ∈ signs ∨ ∃ inside, c :: text = '"' :: (inside ++ ['"']) := by
  obtain ⟨halpha, hdigit⟩ := Bool.or_eq_false_iff.1 hc
  have hno {digits : List Char} (hd : ∀ x ∈ digits, Decimal.isDigit x = true) : c ∉ digits := by
    intro hmem
    rw [hd c hmem] at hdigit
    cases hdigit
  generalize htext : c :: text = whole at h ⊢
  cases h with
  | sign h => exact .inl h
  | word ha =>
    cases htext
    rw [halpha] at ha
    cases ha
  | whole _ hd => exact absurd (htext ▸ List.mem_cons_self) (hno hd)
  | decimal hne _ hd =>
    obtain ⟨d, digits, rfl⟩ := List.exists_cons_of_ne_nil hne
    cases htext
    exact absurd List.mem_cons_self (hno hd)
  | string => exact .inr ⟨_, rfl⟩

theorem Lexeme.of_slash (h : Lexeme ('/' :: text) kind value) : text = [] := by
  have hsigns : ∀ sign ∈ signs, sign.1.head? = some '/' → sign.1 = ['/'] := by decide
  rcases h.of_symbol (by decide) with hsign | ⟨inside, hstring⟩
  · simpa using hsigns _ hsign rfl
  · cases hstring

theorem Lexeme.of_quote (h : Lexeme ('"' :: text) kind value) :
    ∃ inside, text = inside ++ ['"'] := by
  have hsigns : ∀ sign ∈ signs, sign.1.head? ≠ some '"' := by decide
  rcases h.of_symbol (by decide) with hsign | ⟨inside, hstring⟩
  · exact absurd rfl (hsigns _ hsign)
  · exact ⟨inside, (List.cons.inj hstring).2⟩

theorem Comment.exists_second {text : List Char} (h : Comment text) :
    ∃ d more, text = '/' :: d :: more ∧ isAlpha d = false ∧ Comment ['/', d] := by
  cases h with
  | line => exact ⟨'/', _, rfl, rfl, .line List.not_mem_nil⟩
  | block | unclosed => exact ⟨'*', _, rfl, rfl, .unclosed (by decide)⟩

/-- A word ends where no letter and no digit follows. -/
theorem longest_word (h : IsWord text) :
    Longest text rest ↔ ∀ x ∈ rest.head?, isAlphanumeric x = false := by
  obtain ⟨c, body, rfl, hc, hbody⟩ := h
  constructor
  · intro hlongest x hx
    obtain ⟨more, rfl⟩ := List.head?_eq_some_iff.1 hx
    by_contra ha
    have hword : ∀ y ∈ body ++ [x], isAlphanumeric y = true :=
      List.forall_mem_append.2 ⟨hbody, List.forall_mem_singleton.2 (by simpa using ha)⟩
    exact (hlongest (c :: (body ++ [x])) ⟨more, by simp⟩ (by simp)).2 _ _ (.word hc hword)
  · intro hrest longer hpre hlt
    obtain ⟨extra, rfl⟩ := List.prefix_of_prefix_length_le (List.prefix_append _ _) hpre
      (Nat.le_of_lt hlt)
    obtain ⟨x, more, rfl⟩ : ∃ x more, extra = x :: more := by
      refine List.exists_cons_of_ne_nil ?_
      rintro rfl
      simp at hlt
    have hx : isAlphanumeric x = false := by
      obtain ⟨more', rfl⟩ := (List.prefix_append_right_inj _).1 hpre
      exact hrest x rfl
    refine ⟨fun hcomment => ?_, fun kind value hlexeme => ?_⟩
    · obtain ⟨d, _, he, -⟩ := hcomment.exists_second
      obtain rfl := (List.cons.inj he).1
      cases hc
    · rcases hlexeme.of_letter (a := c) (by simp) hc with ⟨_, _, he, -, hall⟩ | ⟨_, he, -⟩
      · cases he
        rw [hall x (by simp)] at hx
        cases hx
      · obtain rfl := (List.cons.inj he).1
        cases hc

/-- The longest token is still the longest one, if what follows it starts in the same way. -/
theorem Longest.swap (h : Longest text rest) (hlexeme : Lexeme text kind value)
    (hs : Swaps rest rest') : Longest text rest' := by
  obtain ⟨same, more, more', rfl, rfl, hmore⟩ := hs
  intro longer hpre hlt
  obtain ⟨extra, rfl⟩ := List.prefix_of_prefix_length_le (List.prefix_append _ _) hpre
    (Nat.le_of_lt hlt)
  have hextra : extra <+: same ++ more' := (List.prefix_append_right_inj _).1 hpre
  by_cases hsame : extra <+: same
  · refine h _ ((List.prefix_append_right_inj _).2 ?_) hlt
    exact hsame.trans (List.prefix_append _ _)
  -- a longer token goes on with the letter that was replaced
  have hends := List.prefix_or_prefix_of_prefix hextra (List.prefix_append same more')
  obtain ⟨tail, rfl⟩ := hends.resolve_left hsame
  have htail : tail <+: more' := (List.prefix_append_right_inj _).1 hextra
  obtain ⟨rfl, rfl⟩ | ⟨a, us, a', us', rfl, rfl, ha, ha'⟩ := hmore
  · exact absurd (by simp [List.prefix_nil.1 htail]) hsame
  obtain ⟨z, rfl⟩ : ∃ z, tail = a' :: z := by
    cases tail with
    | nil => exact absurd (by simp) hsame
    | cons b z => exact ⟨z, by rw [(List.cons_prefix_cons.1 htail).1]⟩
  obtain ⟨c, body, rfl⟩ := List.exists_cons_of_ne_nil hlexeme.ne_nil
  refine ⟨fun hcomment => ?_, fun kind value hlonger => ?_⟩
  · obtain ⟨d, _, he, hd, hshort⟩ := hcomment.exists_second
    rw [List.cons_append, List.cons.injEq] at he
    obtain ⟨rfl, he⟩ := he
    obtain rfl := hlexeme.of_slash
    cases same with
    | nil =>
      cases he
      rw [hd] at ha'
      cases ha'
    | cons e same =>
      cases he
      exact (h ['/', d] ⟨same ++ a :: us, by simp⟩ (by simp)).1 hshort
  · rcases hlonger.of_letter (a := a') (by simp) ha' with ⟨_, _, he, hc, hall⟩ | ⟨inside, he, hi⟩
    · rw [List.cons_append, List.cons.injEq] at he
      obtain ⟨rfl, rfl⟩ := he
      have hword : ∀ x ∈ body ++ (same ++ [a]), isAlphanumeric x = true := by
        simp only [List.forall_mem_append] at hall ⊢
        refine ⟨hall.1, hall.2.1, ?_⟩
        simp [isAlphanumeric, ha]
      exact (h (c :: (body ++ (same ++ [a]))) ⟨us, by simp⟩ (by simp)).2 _ _ (.word hc hword)
    · rw [List.cons_append, List.cons.injEq] at he
      obtain ⟨rfl, he⟩ := he
      obtain ⟨inside₀, rfl⟩ := hlexeme.of_quote
      have hquote : '"' ∈ inside := by
        have hdrop : _ = inside := (congrArg List.dropLast he).trans List.dropLast_concat
        rw [← hdrop, List.dropLast_append_of_ne_nil (by simp)]
        simp
      exact hi hquote

/-- A text that is a word is no other token. -/
theorem Lexeme.kind_of_isWord (h : Lexeme text kind value) (hw : IsWord text) :
    kind = .ofWord (String.ofList text) := by
  obtain ⟨c, body, rfl, hc, -⟩ := hw
  generalize htext : c :: body = text at h ⊢
  cases h with
  | sign h =>
    have ha := isAlpha_of_mem_signs h c (htext ▸ List.mem_cons_self)
    rw [hc] at ha
    cases ha
  | word => rfl
  | whole _ hd =>
    have ha := hd c (htext ▸ List.mem_cons_self)
    rw [Piece.not_isDigit_of_isAlpha hc] at ha
    cases ha
  | decimal hne _ hd =>
    obtain ⟨d, digits, rfl⟩ := List.exists_cons_of_ne_nil hne
    cases htext
    have ha := hd c List.mem_cons_self
    rw [Piece.not_isDigit_of_isAlpha hc] at ha
    cases ha
  | string =>
    cases htext
    cases hc

end Longest

/-! ## Cuts -/

/-- The second part is the first one, or both are names. -/
inductive Part.Respells : Part → Part → Prop where
  | same {p : Part} : Respells p p
  | name {text text' : List Char} : Lexeme text' .identifier .nil →
      Respells ⟨.token .identifier .nil, text⟩ ⟨.token .identifier .nil, text'⟩

/-- A gap stays one if what follows is swapped. -/
theorem Gap.swap {part : Part} {rest rest' : List Char} (h : Gap part rest)
    (hs : Swaps rest rest') : Gap part rest' := by
  cases h with
  | blank hc => exact .blank hc
  | lineComment hbody hrest =>
    refine .lineComment hbody ?_
    rw [hs.head?_eq fun c hc => by rw [hrest c hc]; rfl]
    exact hrest
  | blockComment hbody => exact .blockComment hbody
  | openComment hbody =>
    rw [hs.eq_nil]
    exact .openComment hbody
  | rejected hc => exact .rejected hc
  | openString hbody =>
    rw [hs.eq_nil]
    exact .openString hbody

/-- A text and its respelled parts differ from a letter on, if at all. -/
theorem Cut.swaps (h : Cut s parts) (hp : List.Forall₂ Part.Respells parts parts') :
    Swaps s (parts'.flatMap Part.text) := by
  induction h generalizing parts' with
  | nil =>
    cases hp
    exact ⟨[], [], [], rfl, rfl, .inl ⟨rfl, rfl⟩⟩
  | token hlexeme _ _ ih =>
    obtain _ | ⟨hfirst, hrest⟩ := hp
    rw [List.flatMap_cons]
    cases hfirst with
    | same => exact (ih hrest).append _
    | name hname => exact .words hlexeme.isWord.1 hname.isWord.1 _ _
  | gap hgap _ ih =>
    obtain _ | ⟨hfirst, hrest⟩ := hp
    rw [List.flatMap_cons]
    cases hfirst with
    | same => exact (ih hrest).append _
    | name => cases hgap

/-- The text with names replaced is cut at the same places. -/
theorem Cut.respell (h : Cut s parts) (hp : List.Forall₂ Part.Respells parts parts') :
    Cut (parts'.flatMap Part.text) parts' := by
  induction h generalizing parts' with
  | nil =>
    cases hp
    exact .nil
  | token hlexeme hlongest hcut ih =>
    obtain _ | ⟨hfirst, hrest⟩ := hp
    have hs := hcut.swaps hrest
    rw [List.flatMap_cons]
    cases hfirst with
    | same => exact .token hlexeme (hlongest.swap hlexeme hs) (ih hrest)
    | name hname =>
      refine .token hname ((longest_word hname.isWord.1).2 ?_) (ih hrest)
      have hend := (longest_word hlexeme.isWord.1).1 hlongest
      rw [hs.head?_eq fun c hc => (Bool.or_eq_false_iff.1 (hend c hc)).1]
      exact hend
  | gap hgap hcut ih =>
    obtain _ | ⟨hfirst, hrest⟩ := hp
    rw [List.flatMap_cons]
    cases hfirst with
    | same => exact .gap (hgap.swap (hcut.swaps hrest)) (ih hrest)
    | name => cases hgap

/-! ## Sources -/

/-- The second token is the first one, or the same with another name. -/
def Token.Respells (a a' : Token) : Prop :=
  a' = a ∨ a.kind = .identifier ∧
    ∃ name : String, Lexeme name.toList .identifier .nil ∧ a' = { a with lexeme := .str name }

theorem Gap.tokensAfter_cons {part : Part} {rest : List Char} (h : Gap part rest)
    (before : List Char) (parts : List Part) :
    tokensAfter before (part :: parts) = tokensAfter (before ++ part.text) parts := by
  cases h <;> rfl

/-- Each token of a cut comes from a lexeme. -/
theorem Cut.lexeme_of_mem (h : Cut s parts) {a : Token} :
    ∀ before : List Char, a ∈ tokensAfter before parts →
      ∃ text kind value line, a = .ofText kind (String.ofList text) value line ∧
        Lexeme text kind value := by
  induction h with
  | nil => exact fun _ => nofun
  | token hlexeme _ _ ih =>
    intro before ha
    rcases List.mem_cons.1 ha with rfl | ha
    · exact ⟨_, _, _, _, rfl, hlexeme⟩
    · exact ih _ ha
  | @gap part _ _ hgap _ ih =>
    intro before ha
    rw [hgap.tokensAfter_cons] at ha
    exact ih _ ha

/-- The tokens of a source are lexemes. -/
theorem lexeme_of_mem_scan {a : Token} (ha : a ∈ (scan source).tokens) :
    ∃ s kind value line, a = .ofText kind s value line ∧ Lexeme s.toList kind value := by
  have hcut : Cut source.toList ((Piece.pieces source.toList).map Piece.part) := cut_iff.2 rfl
  rw [← Array.mem_toList_iff, scan_tokens] at ha
  obtain ⟨text, kind, value, line, rfl, hlexeme⟩ :=
    hcut.lexeme_of_mem [] (Piece.tokensFrom_eq [] _ ▸ ha)
  exact ⟨_, kind, value, line, rfl, by rwa [String.toList_ofList]⟩

/-- Respelled tokens have a text, with the line feeds where they were. -/
theorem Cut.exists_parts (h : Cut s parts) :
    ∀ (before before' : List Char) {ts : List Token}, before'.count '\n' = before.count '\n' →
      List.Forall₂ Token.Respells (tokensAfter before parts) ts →
      ∃ parts', List.Forall₂ Part.Respells parts parts' ∧ tokensAfter before' parts' = ts ∧
        (before' ++ parts'.flatMap Part.text).count '\n' = (before ++ s).count '\n' := by
  induction h with
  | nil =>
    intro before before' ts hcount hts
    cases hts
    exact ⟨[], .nil, rfl, by simpa using hcount⟩
  | @token text rest kind value parts hlexeme _ _ ih =>
    intro before before' ts hcount hts
    obtain _ | ⟨hfirst, hrest⟩ := hts
    have hstep {text' : List Char} (hfeeds : text'.count '\n' = text.count '\n') :
        (before' ++ text').count '\n' = (before ++ text).count '\n' := by
      rw [List.count_append, List.count_append, hcount, hfeeds]
    rcases hfirst with rfl | ⟨hkind, name, hname, rfl⟩
    · obtain ⟨parts', hp, rfl, hc⟩ := ih _ _ (hstep rfl) hrest
      refine ⟨_, .cons .same hp, ?_, by simpa using hc⟩
      rw [tokensAfter, hstep rfl]
    · obtain rfl : kind = .identifier := hkind
      obtain ⟨hword, rfl⟩ := hlexeme.isWord
      have hfeeds : name.toList.count '\n' = text.count '\n' := by
        rw [List.count_eq_zero.2 hname.isWord.1.not_mem_feed,
          List.count_eq_zero.2 hword.not_mem_feed]
      obtain ⟨parts', hp, rfl, hc⟩ := ih _ _ (hstep hfeeds) hrest
      refine ⟨_, .cons (.name hname) hp, ?_, by simpa using hc⟩
      rw [tokensAfter, hstep hfeeds, String.ofList_toList]
      rfl
  | @gap part rest parts hgap _ ih =>
    intro before before' ts hcount hts
    have hnext : (before' ++ part.text).count '\n' = (before ++ part.text).count '\n' := by
      rw [List.count_append, List.count_append, hcount]
    rw [hgap.tokensAfter_cons] at hts
    obtain ⟨parts', hp, ht, hc⟩ := ih _ _ hnext hts
    refine ⟨part :: parts', .cons .same hp, (hgap.tokensAfter_cons _ _).trans ht, ?_⟩
    simpa using hc

theorem Part.map_meaning_eq (h : List.Forall₂ Part.Respells parts parts') :
    parts'.map Part.meaning = parts.map Part.meaning := by
  induction h with
  | nil => rfl
  | cons hp _ ih =>
    rw [List.map_cons, List.map_cons, ih]
    cases hp <;> rfl

/-- A text has a problem where a character is rejected or a string is not closed. -/
theorem Cut.problems_eq (h : Cut source.toList parts) :
    (scan source).problems = #[] ↔
      ∀ meaning ∈ parts.map Part.meaning, ¬(meaning matches .rejected | .openString) := by
  rw [scan_problems, cut_iff.1 h, List.map_map, List.forall_mem_map]
  refine forall₂_congr fun p _ => ?_
  have hspec := p.meaning_spec
  show _ ↔ ¬(p.meaning matches .rejected | .openString)
  cases hm : p.meaning with
  | rejected | openString | token | blank | comment | openComment =>
    rw [hm] at hspec
    simp [hspec.2]

/-- There is a source whose tokens are those of another one, but for new names. -/
theorem exists_respelled (hs : (scan source).problems = #[]) {ts : List Token}
    (h : List.Forall₂ Token.Respells (scan source).tokens.toList ts) :
    ∃ source', (scan source').problems = #[] ∧
      (scan source').finish = ts ++ [.ofText .eof "" .nil (scan source).line] := by
  have hcut : Cut source.toList ((Piece.pieces source.toList).map Piece.part) := cut_iff.2 rfl
  have htokens : (scan source).tokens.toList = tokensAfter [] _ :=
    (scan_tokens source).trans (Piece.tokensFrom_eq [] _)
  rw [htokens] at h
  obtain ⟨parts', hp, rfl, hcount⟩ := hcut.exists_parts [] [] rfl h
  have hlist : (String.ofList (parts'.flatMap Part.text)).toList = parts'.flatMap Part.text := by
    simp
  have hcut' : Cut (String.ofList (parts'.flatMap Part.text)).toList parts' := by
    rw [hlist]
    exact hcut.respell hp
  refine ⟨String.ofList (parts'.flatMap Part.text), ?_, ?_⟩
  · rwa [hcut'.problems_eq, Part.map_meaning_eq hp, ← hcut.problems_eq]
  · rw [List.nil_append, List.nil_append] at hcount
    rw [hcut'.finish_eq, hlist, hcount, scan_line]

end LoxLang
