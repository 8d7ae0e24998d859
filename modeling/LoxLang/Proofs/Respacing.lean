import LoxLang.Proofs.Respelling

/-!
# Tokens written out again

A token is a text of its own: nothing longer starts where it starts, if a blank follows it or
nothing does (`Lexeme.longest_of_blank`). So tokens that are written out with a blank between any
two of them are cut at the blanks again, and nothing is reported (`ReadsAs.spaced`). The tokens
of a source, valid or not, are thus found again in the text of their lexemes
(`scan_spaced_lexemes`).
-/

namespace LoxLang

/-! ## Before a blank -/

section Blank

variable {text rest : List Char} {kind : Token.Kind} {value : Scalar}

/-- A lexeme with a blank in it is a string. -/
theorem Lexeme.of_blank (h : Lexeme text kind value) (hmem : ' ' ∈ text) :
    ∃ inside, text = '"' :: (inside ++ ['"']) ∧ '"' ∉ inside := by
  have hdigit {digits : List Char} (hd : ∀ x ∈ digits, Decimal.isDigit x = true) : ' ' ∉ digits :=
    fun hmem => absurd (hd _ hmem) (by decide)
  cases h with
  | sign h =>
    have hsigns : (signs.all fun sign => sign.1.all (· ≠ ' ')) = true := by decide
    have hne := List.all_eq_true.1 (List.all_eq_true.1 hsigns _ h) _ hmem
    simp at hne
  | @word c body hc hbody =>
    rcases List.mem_cons.1 hmem with rfl | hmem
    · cases hc
    · exact absurd (hbody _ hmem) (by decide)
  | whole _ hd => exact absurd hmem (hdigit hd)
  | decimal _ _ hd =>
    obtain ⟨hdigits, hfraction⟩ := List.forall_mem_append.1 hd
    simp [hdigit hdigits, hdigit hfraction] at hmem
  | string hinside => exact ⟨_, rfl, hinside⟩

/-- Nothing longer than a token starts where it starts, if a blank follows it or nothing does. -/
theorem Lexeme.longest_of_blank (h : Lexeme text kind value)
    (hrest : ∀ c ∈ rest.head?, c = ' ') : Longest text rest := by
  intro longer hpre hlt
  obtain ⟨extra, rfl⟩ := List.prefix_of_prefix_length_le (List.prefix_append _ _) hpre
    (Nat.le_of_lt hlt)
  obtain ⟨more, rfl⟩ : ∃ more, extra = ' ' :: more := by
    cases extra with
    | nil => simp at hlt
    | cons c more =>
      obtain ⟨tail, rfl⟩ := (List.prefix_append_right_inj _).1 hpre
      exact ⟨more, by rw [hrest c rfl]⟩
  obtain ⟨c, body, rfl⟩ := List.exists_cons_of_ne_nil h.ne_nil
  refine ⟨fun hcomment => ?_, fun kind value hlonger => ?_⟩
  · -- a comment would go on right behind the slash that the token is
    obtain ⟨d, body', hd, -, hsecond⟩ := hcomment.exists_second
    rw [List.cons_append, List.cons.injEq] at hd
    obtain ⟨rfl, hd⟩ := hd
    obtain rfl := h.of_slash
    cases hd
    cases hsecond
  · -- a string would go on behind its closing quote
    obtain ⟨inside, hinside, hquote⟩ := hlonger.of_blank (by simp)
    rw [List.cons_append, List.cons.injEq] at hinside
    obtain ⟨rfl, hinside⟩ := hinside
    obtain ⟨inside₀, rfl⟩ := h.of_quote
    have hdrop := (congrArg List.dropLast hinside).trans List.dropLast_concat
    rw [List.dropLast_append_of_ne_nil (by simp)] at hdrop
    exact hquote (hdrop ▸ by simp)

end Blank

/-! ## Lexemes with blanks between them -/

namespace Token

/-- What a token is, its line apart. -/
def reading (t : Token) : Kind × Json × Json :=
  (t.kind, t.lexeme, t.literal)

/-- The text of a token's lexeme. -/
def spelled (t : Token) : String :=
  t.lexeme.spelling

/-- The token can be cut from a text. -/
def IsLexeme (t : Token) : Prop :=
  ∃ (text : String) (value : Scalar), t.lexeme = .str text ∧ t.literal = .scalar value ∧
    Lexeme text.toList t.kind value

end Token

/-- The part is a token or a blank. -/
def Part.IsPlain (p : Part) : Prop :=
  p.meaning matches .token .. | .blank

/-- The text is cut into the tokens and blanks. -/
def ReadsAs (s : List Char) (ts : List Token) : Prop :=
  ∃ parts, Cut s parts ∧ (∀ p ∈ parts, p.IsPlain) ∧
    ∀ before, (tokensAfter before parts).map Token.reading = ts.map Token.reading

namespace ReadsAs

variable {s : List Char} {t : Token} {ts : List Token}

theorem nil : ReadsAs [] [] :=
  ⟨[], .nil, nofun, fun _ => rfl⟩

theorem blank (h : ReadsAs s ts) : ReadsAs (' ' :: s) ts := by
  obtain ⟨parts, hcut, hplain, htokens⟩ := h
  refine ⟨⟨.blank, [' ']⟩ :: parts, .gap (.blank rfl) hcut, ?_, fun before => htokens _⟩
  exact List.forall_mem_cons.2 ⟨rfl, hplain⟩

/-- A token stands in front, and what follows it starts with a blank. -/
theorem token (ht : t.IsLexeme) (hs : ∀ c ∈ s.head?, c = ' ') (h : ReadsAs s ts) :
    ReadsAs (t.spelled.toList ++ s) (t :: ts) := by
  obtain ⟨text, value, hlexeme, hliteral, hl⟩ := ht
  obtain ⟨parts, hcut, hplain, htokens⟩ := h
  have hspelled : t.spelled = text := by
    rw [Token.spelled, hlexeme]
    rfl
  rw [hspelled]
  refine ⟨_, .token hl (hl.longest_of_blank hs) hcut, ?_, fun before => ?_⟩
  · exact List.forall_mem_cons.2 ⟨rfl, hplain⟩
  · rw [tokensAfter, List.map_cons, List.map_cons, htokens]
    simp [Token.reading, Token.ofText, hlexeme, hliteral]

/-- Lexemes with a blank between any two of them, and perhaps one after the last. -/
theorem spaced {tail : List Char} (htail : tail = [] ∨ tail = [' ']) :
    ∀ {ts : List Token}, (∀ t ∈ ts, t.IsLexeme) →
      ReadsAs ((" ".intercalate (ts.map Token.spelled)).toList ++ tail) ts
  | [], _ => by
    rcases htail with rfl | rfl
    · exact nil
    · exact nil.blank
  | [t], ht => by
    rw [List.map_singleton, String.intercalate_singleton]
    rcases htail with rfl | rfl
    · exact nil.token (ht t List.mem_cons_self) nofun
    · refine nil.blank.token (ht t List.mem_cons_self) ?_
      simp
  | t :: u :: ts, ht => by
    obtain ⟨ht, hts⟩ := List.forall_mem_cons.1 ht
    have hrest := (spaced htail hts).blank
    rw [List.map_cons, List.map_cons, String.intercalate_cons_cons]
    simpa using hrest.token ht (by simp)

end ReadsAs

/-- Nothing is wrong with the text, and its tokens are the given ones, their lines apart. -/
def ScansTo (text : String) (tokens : List Token) : Prop :=
  (scan text).problems = #[] ∧ (scan text).finish.map Token.reading = tokens.map Token.reading

/-- A text that reads as tokens is scanned to them. -/
theorem ReadsAs.scansTo {text : String} {ts : List Token} (h : ReadsAs text.toList ts)
    (line : Int) :
    ScansTo text (ts ++ [.ofText .eof "" .nil line]) := by
  obtain ⟨parts, hcut, hplain, htokens⟩ := h
  constructor
  · rw [hcut.problems_eq, List.forall_mem_map]
    intro p hmem hproblem
    have hp := hplain p hmem
    unfold Part.IsPlain at hp
    cases hm : p.meaning <;> simp [hm] at hp hproblem
  · rw [hcut.finish_eq, List.map_append, List.map_append, htokens]
    rfl

theorem isLexeme_of_mem_scan {source : String} {t : Token} (ht : t ∈ (scan source).tokens.toList) :
    t.IsLexeme := by
  obtain ⟨text, kind, value, line, rfl, h⟩ := lexeme_of_mem_scan (Array.mem_toList_iff.1 ht)
  exact ⟨text, value, rfl, rfl, h⟩

/-- The tokens of a source, valid or not, are found again in the text of their lexemes with single
blanks between them, whether the empty lexeme of the end is among them or not. -/
theorem scan_spaced_lexemes (source : String) :
    let tokens := (scan source).finish
    tokens.map Token.lexeme = tokens.map (fun t => .str t.spelled) ∧
    ScansTo (" ".intercalate (tokens.map Token.spelled)) tokens ∧
    ScansTo (" ".intercalate ((scan source).tokens.toList.map Token.spelled)) tokens := by
  intro tokens
  have hfinish :
      tokens = (scan source).tokens.toList ++ [.ofText .eof "" .nil (scan source).line] :=
    Scan.finish_eq _
  have hlexeme : ∀ t ∈ (scan source).tokens.toList, t.IsLexeme := fun _ => isLexeme_of_mem_scan
  refine ⟨?_, ?_, ?_⟩
  · rw [hfinish, List.map_append, List.map_append]
    refine congrArg (· ++ _) (List.map_congr_left fun t ht => ?_)
    obtain ⟨text, value, htext, -⟩ := hlexeme t ht
    rw [Token.spelled, htext]
    rfl
  · rw [hfinish]
    refine ReadsAs.scansTo ?_ _
    have hend : (Token.ofText .eof "" .nil (scan source).line).spelled = "" := rfl
    rw [List.map_append, List.map_singleton, hend]
    by_cases hnil : (scan source).tokens.toList = []
    · rw [hnil]
      exact .nil
    · -- the empty lexeme adds a blank after the last token
      rw [String.intercalate_append_of_ne_nil (by simpa using hnil) (by simp)]
      simpa using ReadsAs.spaced (.inr rfl) hlexeme
  · rw [hfinish]
    refine ReadsAs.scansTo ?_ _
    simpa using ReadsAs.spaced (.inl rfl) hlexeme

end LoxLang
