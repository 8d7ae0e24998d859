import LoxLang.Proofs.Grammar.Recognition
import LoxLang.Proofs.Grammar.Recovery

/-!
# Where the parser ends

A program ends at the first token that says so. The parser always comes there and never further, it
never looks before the first token, and it gives the same result whatever follows
(`parse_stays_inside`). Without such a token it runs out of tokens.

A statement is over at its last token. So the statements of a program without problems, followed by
any other program, are read as they are without it (`parse_append_statements`).
-/

namespace LoxLang.Parser

variable {room fuel : Nat} {body rest : List Token} {e : Token}

/-- Both parsers read the tokens up to an end of the program, whatever follows. The one over
positions stops at the end, where it has not been further, and the bound on its loops is no
matter. -/
structure ReadsTo (room : Nat) (body : List Token) (e : Token) (trees : List Tree)
    (problems : Array Diagnostic) : Prop where
  ahead : ∀ rest, program room (body ++ e :: rest) = .ok trees { ahead := e :: rest, problems }
  positions : ∀ rest fuel, body.length < fuel → Cursor.program fuel room (body ++ e :: rest) =
    .ok trees
      { tokens := body ++ e :: rest
        position := body.length
        furthest := body.length
        problems }

/-- The tokens before an end of the program, with the end and what follows in two ways. -/
def Fork.atEnd (body : List Token) (e : Token) (rest rest' : List Token)
    (inside : ∀ t ∈ body, t.kind ≠ .eof) (he : e.kind = .eof) : Fork where
  body
  first := e :: rest
  second := e :: rest'
  inside
  ends := by
    rintro t ⟨⟩
    exact he
  goesOn _ := ⟨e, rfl, by simp [he]⟩

theorem Fork.beside_start (F : Fork) : F.Beside F.body { ahead := F.body ++ F.first }
    { tokens := F.body ++ F.second } :=
  ⟨rfl, rfl, List.suffix_refl _, Nat.zero_add _, rfl, rfl⟩

/-- At the fork, only the problems are open. -/
theorem Fork.Beside.eq {F : Fork} {s : State} {c : Cursor.State} (h : F.Beside [] s c) :
    s = { ahead := F.first, problems := s.problems } ∧
      c = { tokens := F.body ++ F.second
            position := F.body.length
            furthest := F.body.length
            problems := s.problems } := by
  obtain ⟨ahead, problems⟩ := s
  obtain ⟨tokens, position, furthest, problems'⟩ := c
  obtain ⟨hahead, htokens, -, hposition, hfurthest, hproblems⟩ := h
  dsimp only [List.length_nil, Nat.add_zero, List.nil_append] at *
  subst hahead htokens hposition hfurthest hproblems
  exact ⟨rfl, rfl⟩

/-- The statements of a program, read side by side. -/
theorem Fork.abreast_program (F : Fork) {n fuel fuel' room room' : Nat} (hf : n < fuel)
    (hf' : n < fuel') (hr : Fork.Roomy 18 n room room') :
    F.AbreastAtTop n (room < 20 * n + 18) (recoverDepth (declaration fuel room))
      (Cursor.recoverDepth fuel' (Parser.declaration fuel' room')) := by
  refine (Fork.abreast_declaration hf hf' hr).atTop (fun s s' => ?_) hf'
  cases room with
  | zero =>
    unfold declaration
    exact fun h => by cases h
  | succ room =>
    unfold declaration
    exact Fork.recover_ne_syntaxProblem s s'

/-- Both parsers come to the end of the program, with the same result. The rooms and what follows the
end need not be the same. -/
theorem program_eq (inside : ∀ t ∈ body, t.kind ≠ .eof) (he : e.kind = .eof) {room' fuel : Nat}
    (hr : Fork.Roomy 18 body.length room room') (hf : body.length < fuel) (rest rest' : List Token) :
    ∃ trees problems, program room (body ++ e :: rest) = .ok trees { ahead := e :: rest, problems } ∧
      Cursor.program fuel room' (body ++ e :: rest') = .ok trees
        { tokens := body ++ e :: rest'
          position := body.length
          furthest := body.length
          problems } ∧
      ∀ d ∈ problems, ∃ t ∈ body ++ e :: rest, ∃ problem, d = .ofToken t problem ∧
        (problem = .tooDeep → room < 20 * body.length + 18) := by
  let F := Fork.atEnd body e rest rest' inside he
  have hlength : body.length < (body ++ e :: rest).length + 1 := by
    rw [List.length_append]
    omega
  obtain ⟨-, trees, s, c, hx, hy, ho⟩ | ⟨hnil, -⟩ := Fork.programFrom_eq (F := F) rfl
    (F.abreast_program hlength hf hr) _ fuel [] [] (Nat.le_refl _) hlength hf F.beside_start
  · obtain ⟨hs, hc⟩ := ho.beside.eq
    rw [hs] at hx
    rw [hc] at hy
    exact ⟨trees, s.problems, hx, hy, fun d hd =>
      (ho.problems d hd).resolve_left (Array.not_mem_empty d)⟩
  · cases hnil

/-- With room for all tokens nothing is nested too deeply, and more room makes no difference. -/
theorem exists_readsTo (inside : ∀ t ∈ body, t.kind ≠ .eof) (he : e.kind = .eof) (room : Nat) :
    ∃ trees problems, (20 * body.length + 18 ≤ room → ¬DepthReported problems.toList) ∧
      ∀ room', Fork.Roomy 18 body.length room room' → ReadsTo room' body e trees problems := by
  obtain ⟨trees, problems, hlist, -, hdeep⟩ := program_eq inside he
    (.inl rfl : Fork.Roomy 18 _ room room) (Nat.lt_succ_self _) [] []
  refine ⟨trees, problems, fun hroom => ?_, fun room' hr => ⟨fun rest => ?_, fun rest fuel hf => ?_⟩⟩
  · rintro ⟨token, hmem⟩
    obtain ⟨t, -, problem, heq, hlt⟩ := hdeep _ (Array.mem_toList_iff.1 hmem)
    have := hlt (Diagnostic.static.inj heq).2.2.symm
    omega
  · obtain ⟨trees', problems', hfirst, hcursor, -⟩ := program_eq inside he hr
      (Nat.lt_succ_self body.length) [] rest
    cases hlist.symm.trans hfirst
    obtain ⟨trees'', problems'', hother, hcursor', -⟩ := program_eq inside he
      (.inl rfl : Fork.Roomy 18 _ room' room') (Nat.lt_succ_self _) rest rest
    cases hcursor.symm.trans hcursor'
    exact hother
  · obtain ⟨trees', problems', hfirst, hcursor, -⟩ := program_eq inside he hr hf [] rest
    cases hlist.symm.trans hfirst
    exact hcursor

/-- Tokens without an end of the program. -/
def Fork.unended (tokens : List Token) (inside : ∀ t ∈ tokens, t.kind ≠ .eof) : Fork where
  body := tokens
  first := []
  second := []
  inside
  ends := by simp
  goesOn h := absurd rfl h

/-- Without an end of the program both parsers run out of tokens. -/
theorem program_unended {tokens : List Token} (inside : ∀ t ∈ tokens, t.kind ≠ .eof)
    (hf : tokens.length < fuel) : (∃ s, program room tokens = .error .outOfTokens s) ∧
      ∃ c, Cursor.program fuel room tokens = .error (.stopped .outOfTokens) c := by
  let F := Fork.unended tokens inside
  obtain ⟨hne, -⟩ | ⟨-, s, c, hx, hy⟩ := Fork.programFrom_eq (F := F) rfl
    (F.abreast_program (Nat.lt_succ_self _) hf (.inl rfl : Fork.Roomy 18 _ room room)) _ fuel [] []
    (Nat.le_refl _) (Nat.lt_succ_self _) hf F.beside_start
  · exact absurd rfl hne
  · have hbody : F.body ++ F.first = tokens := List.append_nil tokens
    have hbody' : F.body ++ F.second = tokens := List.append_nil tokens
    rw [hbody] at hx
    rw [hbody'] at hy
    exact ⟨⟨s, hx⟩, c, hy⟩

/-- If there is an end of the program, there is a first one. -/
theorem exists_first_eof {t : Token} : ∀ {tokens : List Token}, t ∈ tokens → t.kind = .eof →
    ∃ body e rest, tokens = body ++ e :: rest ∧ e.kind = .eof ∧ ∀ t ∈ body, t.kind ≠ .eof
  | u :: tokens, ht, hkind => by
    by_cases hu : u.kind = .eof
    · exact ⟨[], u, tokens, rfl, hu, by simp⟩
    · obtain ⟨body, e, rest, rfl, he, inside⟩ := exists_first_eof
        ((List.mem_cons.1 ht).resolve_left fun h => hu (h ▸ hkind)) hkind
      exact ⟨u :: body, e, rest, rfl, he, List.forall_mem_cons.2 ⟨hu, inside⟩⟩

/-- A program without problems, and another one after it. -/
def Fork.between (P P' : List Token) (e e' : Token) (inside : ∀ t ∈ P, t.kind ≠ .eof)
    (he : e.kind = .eof) (he' : e'.kind = .eof) (helse : ∀ t ∈ P'.head?, t.kind ≠ .kwElse) :
    Fork where
  body := P
  first := [e]
  second := P' ++ [e']
  inside
  ends := by
    rintro t ⟨⟩
    exact he
  goesOn _ := by
    cases P' with
    | nil => exact ⟨e', rfl, by simp [he']⟩
    | cons t rest => exact ⟨t, rfl, by simpa using helse t rfl⟩

/-- After a program without problems the parser goes on as at the start of the second one. -/
theorem program_append {P P' : List Token} {e e' : Token} (inside : ∀ t ∈ P, t.kind ≠ .eof)
    (inside' : ∀ t ∈ P', t.kind ≠ .eof) (he : e.kind = .eof) (he' : e'.kind = .eof)
    (helse : ∀ t ∈ P'.head?, t.kind ≠ .kwElse) {trees : List Tree} {s : State}
    (hclean : program room (P ++ [e]) = .ok trees s) (hproblems : s.problems = #[]) :
    ∃ trees' s', program room (P' ++ [e']) = .ok trees' s' ∧
      program room (P ++ P' ++ [e']) = .ok (trees ++ trees') s' := by
  have hlength : P.length < (P ++ [e]).length + 1 := by
    rw [List.length_append]
    omega
  have hlength' : P'.length < (P' ++ [e']).length + 1 := by
    rw [List.length_append]
    omega
  have hboth : (P ++ P').length < (P ++ P' ++ [e']).length + 1 := by
    rw [@List.length_append _ (P ++ P')]
    omega
  have hsum : (P ++ P').length = P.length + P'.length := List.length_append
  have hleft : P.length < (P ++ P' ++ [e']).length + 1 := by omega
  have hright : P'.length < (P ++ P' ++ [e']).length + 1 := by omega
  have hr {n : Nat} : Fork.Roomy 18 n room room := .inl rfl
  -- the first program, with its own end and with the second one after it
  let F := Fork.between P P' e e' inside he he' helse
  obtain ⟨done, c, left, rfl, ho, hfuel, hfirst⟩ := Fork.programFrom_append (F := F) rfl
    (F.abreast_program hlength hleft hr) _ _ (Nat.le_refl _) hlength hleft F.beside_start hclean
    (by simp [hproblems])
  -- the second program, alone and after the first one
  have inside'' : ∀ t ∈ P ++ P', t.kind ≠ .eof := fun t ht =>
    (List.mem_append.1 ht).elim (inside t) (inside' t)
  let G := Fork.atEnd (P ++ P') e' [] [] inside'' he'
  obtain ⟨-, hc⟩ := ho.beside.eq
  have hbeside : G.Beside P' { ahead := P' ++ [e'] } c := by
    rw [hc]
    exact ⟨rfl, (List.append_assoc _ _ _).symm, List.suffix_append _ _, List.length_append.symm,
      rfl, hproblems⟩
  obtain ⟨-, trees', s', c', hsecond, hcursor, ho'⟩ | ⟨hnil, -⟩ := Fork.programFrom_eq (F := G) rfl
    (G.abreast_program hlength' hright hr) _ left [] done (Nat.le_refl _) hlength'
    (by omega) hbeside
  · obtain ⟨trees'', problems, hlist, hcursor', -⟩ := program_eq inside'' he' hr hboth
      [] []
    obtain ⟨hs', hc'⟩ := ho'.beside.eq
    have hwhole : F.body ++ F.second = P ++ P' ++ [e'] := (List.append_assoc _ _ _).symm
    rw [hwhole, hcursor, hc'] at hfirst
    have hend := hfirst.symm.trans hcursor'
    cases hend
    exact ⟨trees', s', hsecond, hs' ▸ hlist⟩
  · cases hnil

end LoxLang.Parser

namespace LoxLang

open LoxLang.Parser (program ReadsTo DepthReported)

theorem parse_eq_some_iff {tokens : List Token} {statements : List Tree}
    {problems : List Diagnostic} :
    parse? tokens = some ⟨statements, problems⟩ ↔
      ∃ s, program Tree.maxDepth tokens = .ok statements s ∧ s.problems.toList = problems := by
  unfold parse?
  cases program Tree.maxDepth tokens <;> simp [and_assoc]

/-- There is no answer exactly if none of the tokens ends the program, with any room. -/
theorem program_eq_outOfTokens_iff {tokens : List Token} {room : Nat} :
    (∃ s, program room tokens = .error .outOfTokens s) ↔ ∀ t ∈ tokens, t.kind ≠ .eof := by
  refine ⟨?_, fun inside => (Parser.program_unended inside (Nat.lt_succ_self _)).1⟩
  rintro ⟨s, hs⟩ t ht hkind
  obtain ⟨body, e, rest, rfl, he, inside⟩ := Parser.exists_first_eof ht hkind
  obtain ⟨trees, problems, -, hreads⟩ := Parser.exists_readsTo inside he room
  cases hs.symm.trans ((hreads room (.inl rfl)).ahead rest)

/-- The parser always ends. It runs out of tokens exactly if none of them ends the program. Otherwise
it reads up to the first one that does, which its position never passes, and no problem and no look
before the first token stops it. With enough room for the number of tokens the limit on the depth
plays no part. -/
theorem parse_stays_inside (tokens : List Token) :
    (parse? tokens = none ↔ ∀ t ∈ tokens, t.kind ≠ .eof) ∧
    ∀ room,
      ((∃ s, program room tokens = .error .outOfTokens s) ↔ ∀ t ∈ tokens, t.kind ≠ .eof) ∧
      ((∀ t ∈ tokens, t.kind ≠ .eof) → ∀ fuel, tokens.length < fuel →
        ∃ c, Cursor.program fuel room tokens = .error (.stopped .outOfTokens) c) ∧
      ∀ body e rest, tokens = body ++ e :: rest → (∀ t ∈ body, t.kind ≠ .eof) → e.kind = .eof →
        ∃ trees problems, ReadsTo room body e trees problems ∧
          (20 * body.length + 18 ≤ room → ¬DepthReported problems.toList ∧
            ∀ room', 20 * body.length + 18 ≤ room' → ReadsTo room' body e trees problems) := by
  refine ⟨⟨fun h t ht hkind => ?_, fun inside => ?_⟩, fun room => ⟨program_eq_outOfTokens_iff,
    fun inside fuel hf => (Parser.program_unended inside hf).2, ?_⟩⟩
  · obtain ⟨body, e, rest, rfl, he, inside⟩ := Parser.exists_first_eof ht hkind
    obtain ⟨trees, problems, -, hreads⟩ := Parser.exists_readsTo inside he Tree.maxDepth
    cases h.symm.trans (parse_eq_some_iff.2 ⟨_, (hreads _ (.inl rfl)).ahead rest, rfl⟩)
  · obtain ⟨s, hs⟩ := program_eq_outOfTokens_iff.2 inside
    rw [parse?, hs]
  · rintro body e rest rfl inside he
    obtain ⟨trees, problems, hdeep, hreads⟩ := Parser.exists_readsTo inside he room
    exact ⟨trees, problems, hreads room (.inl rfl), fun hroom => ⟨hdeep hroom, fun room' hroom' =>
      hreads room' (.inr ⟨hroom, hroom'⟩)⟩⟩

/-- The tokens of an expression without its semicolon, then of two ends with a token between. -/
theorem parse_stays_inside_unclosed :
    let x : Token := .ofText .identifier "x" .nil 1
    let e : Token := .ofText .eof "" .nil 1
    ∃ trees problems, ReadsTo Tree.maxDepth [x] e trees problems ∧ ¬DepthReported problems.toList ∧
      problems.size = 1 := by
  intro x e
  obtain ⟨trees, problems, h, hdeep⟩ := ((parse_stays_inside [x, e, x, e]).2 Tree.maxDepth).2.2 [x] e
    [x, e] rfl (by simp [x, Token.ofText]) rfl
  refine ⟨trees, problems, h, (hdeep (by decide)).1, ?_⟩
  cases (h.ahead []).symm
  rfl

/-- After the statements of a program without problems, the statements and problems of any program
that does not start with `else` are read as they are alone. This holds with any room. -/
theorem parse_append_statements {P P' : List Token} {e e' : Token} (inside : ∀ t ∈ P, t.kind ≠ .eof)
    (inside' : ∀ t ∈ P', t.kind ≠ .eof) (he : e.kind = .eof) (he' : e'.kind = .eof)
    (helse : ∀ t ∈ P'.head?, t.kind ≠ .kwElse) :
    (∀ trees, parse? (P ++ [e]) = some ⟨trees, []⟩ →
      ∃ trees' problems, parse? (P' ++ [e']) = some ⟨trees', problems⟩ ∧
        parse? (P ++ P' ++ [e']) = some ⟨trees ++ trees', problems⟩) ∧
    ∀ room trees s, program room (P ++ [e]) = .ok trees s → s.problems = #[] →
      ∃ trees' s', program room (P' ++ [e']) = .ok trees' s' ∧
        program room (P ++ P' ++ [e']) = .ok (trees ++ trees') s' := by
  refine ⟨fun trees h => ?_, fun room trees s => Parser.program_append inside inside' he he' helse⟩
  obtain ⟨s, hs, hproblems⟩ := parse_eq_some_iff.1 h
  obtain ⟨trees', s', hsecond, hboth⟩ := Parser.program_append inside inside' he he' helse hs
    (Array.toList_eq_nil_iff.1 hproblems)
  exact ⟨trees', s'.problems.toList, parse_eq_some_iff.2 ⟨s', hsecond, rfl⟩,
    parse_eq_some_iff.2 ⟨s', hboth, rfl⟩⟩

/-- A conditional without `else`, then a closing parenthesis and a statement. -/
theorem parse_append_statements_conditional :
    let P : List Token := [Token.Kind.kwIf, .leftParen, .identifier, .rightParen, .identifier,
      .semicolon].map fun kind => .ofText kind "x" .nil 1
    let P' : List Token := [Token.Kind.rightParen, .kwPrint, .identifier, .semicolon].map
      fun kind => .ofText kind "x" .nil 2
    let e : Token := .ofText .eof "" .nil 2
    ∃ trees trees' problems, parse? (P ++ [e]) = some ⟨trees, []⟩ ∧
      parse? (P' ++ [e]) = some ⟨trees', problems⟩ ∧ trees'.length = 2 ∧ problems.length = 1 ∧
      parse? (P ++ P' ++ [e]) = some ⟨trees ++ trees', problems⟩ := by
  intro P P' e
  have hfirst : parse? (P ++ [e]) = some ⟨_, []⟩ := rfl
  obtain ⟨trees', problems, hsecond, hboth⟩ := (@parse_append_statements P P' e e (by decide)
    (by decide) rfl rfl (by decide)).1 _ hfirst
  refine ⟨_, trees', problems, hfirst, hsecond, ?_, ?_, hboth⟩ <;>
  · cases hsecond
    rfl

end LoxLang
