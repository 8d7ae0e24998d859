import LoxLang.Proofs.Grammar.Completeness

/-!
# The parser accepts its grammar

A list of tokens is read without a report if and only if the grammar derives it, and the parser then
gives the tree of the one derivation in which each `else` belongs to the nearest `if`
(`parse_iff_derives`). Programs that are nested too deeply are left aside.

The grammar without the rule for `else` derives no more programs than the one with it
(`Derives.nearest`): where an `else` follows a statement that ends in an `if` without an `else`,
that `if` can take it.
-/

namespace LoxLang.Grammar

variable {sym : Symbol} {ts : List Token} {trees : List Tree} {t : Tree}

/-! ## Each `else` at the nearest `if` -/

/-- A derivation that obeys the rule for `else` is a derivation. -/
theorem Derives.relax (h : Derives true sym ts trees) : Derives false sym ts trees := by
  induction h with
  | ifElse hkw hopen _ hclose _ _ helse _ ih₁ ih₂ ih₃ =>
    exact .ifElse hkw hopen ih₁ hclose ih₂ nofun helse ih₃
  | declareFun _ ih => exact .declareFun ih
  | declareVar _ ih => exact .declareVar ih
  | printStatement hkw _ hsemi ih => exact .printStatement hkw ih hsemi
  | returnStatement hkw _ hsemi ih => exact .returnStatement hkw ih hsemi
  | blockStatement _ ih => exact .blockStatement ih
  | startExpression _ ih => exact .startExpression ih
  | operator _ hop _ ih ih' => exact .operator ih hop ih'
  | call _ hopen _ hclose ih ih' => exact .call ih hopen ih' hclose
  | getField _ hdot hname ih => exact .getField ih hdot hname
  | string ht => exact .string ht
  | _ => constructor <;> assumption

/-- The innermost open `if` of a dangling statement takes an `else`. -/
theorem Derives.attach {vs : List Token} {d : Bool} {kwElse : Token} {e : Tree}
    (h : Derives true sym ts trees) (hs : sym = .statement true) (helse : kwElse.kind = .kwElse)
    (he : Derives true (.statement d) vs [e]) :
    ∃ d' t, Derives true (.statement d') (ts ++ kwElse :: vs) [t] := by
  induction h with
  | forStatement hkw hopen h₁ h₂ hsemi h₃ hclose _ _ _ _ ih =>
    obtain ⟨d', t, ht⟩ := ih hs
    exact ⟨d', _, by simpa using Derives.forStatement hkw hopen h₁ h₂ hsemi h₃ hclose ht⟩
  | @ifStatement d₁ _ _ _ _ _ _ _ hkw hopen hc hclose ht _ ih =>
    cases d₁ with
    | false =>
      exact ⟨d, _, by simpa using Derives.ifElse hkw hopen hc hclose ht (fun _ => rfl) helse he⟩
    | true =>
      obtain ⟨d', t, ht⟩ := ih rfl
      exact ⟨true, _, by simpa using Derives.ifStatement hkw hopen hc hclose ht⟩
  | ifElse hkw hopen hc hclose ht hd helse' _ _ _ ih =>
    obtain ⟨d', t, he'⟩ := ih hs
    exact ⟨d', _, by simpa using Derives.ifElse hkw hopen hc hclose ht hd helse' he'⟩
  | whileStatement hkw hopen hc hclose _ _ ih =>
    obtain ⟨d', t, ht⟩ := ih hs
    exact ⟨d', _, by simpa using Derives.whileStatement hkw hopen hc hclose ht⟩
  | _ => cases hs

/-- A derivation that obeys the rule for `else`, of the same tokens and of as many trees. Whether a
statement is dangling may differ. -/
def Nearest : Symbol → List Token → List Tree → Prop
  | .statement _, ts, _ => ∃ d t, Derives true (.statement d) ts [t]
  | .declaration _, ts, _ => ∃ d t, Derives true (.declaration d) ts [t]
  | sym, ts, trees => ∃ trees', trees'.length = trees.length ∧ Derives true sym ts trees'

theorem exists_single (h : ∃ trees', trees'.length = [t].length ∧ Derives true sym ts trees') :
    ∃ t', Derives true sym ts [t'] := by
  obtain ⟨trees, hl, h⟩ := h
  obtain ⟨t', rfl⟩ := List.length_eq_one_iff.1 hl
  exact ⟨t', h⟩

theorem of_single {t' : Tree} (h : Derives true sym ts [t']) :
    ∃ trees', trees'.length = [t].length ∧ Derives true sym ts trees' :=
  ⟨[t'], rfl, h⟩

theorem nearest_operand {level : Level} (h : Nearest level.operand ts [t]) :
    ∃ t', Derives true level.operand ts [t'] := by
  cases level <;> exact exists_single h

/-- What the grammar derives is derived with each `else` at the nearest `if`. -/
theorem Derives.nearest (h : Derives false sym ts trees) : Nearest sym ts trees := by
  induction h with
  | program _ ih =>
    obtain ⟨trees, hl, h⟩ := ih
    exact ⟨trees, hl, .program h⟩
  | moreDeclarations _ _ ih ih' =>
    obtain ⟨d, t, h⟩ := ih
    obtain ⟨trees, hl, h'⟩ := ih'
    exact ⟨t :: trees, by simp [hl], .moreDeclarations h h'⟩
  | declareClass _ ih =>
    obtain ⟨t, h⟩ := exists_single ih
    exact ⟨false, t, .declareClass h⟩
  | declareFun _ ih =>
    obtain ⟨t, h⟩ := exists_single ih
    exact ⟨false, t, .declareFun h⟩
  | declareVar _ ih =>
    obtain ⟨t, h⟩ := exists_single ih
    exact ⟨false, t, .declareVar h⟩
  | statement _ ih =>
    obtain ⟨d, t, h⟩ := ih
    exact ⟨d, t, .statement h⟩
  | rootClass hkw hname hopen _ hclose ih =>
    obtain ⟨ms, hl, h⟩ := ih
    exact of_single (.rootClass hkw hname hopen h hclose)
  | subclass hkw hname hless hparent hopen _ hclose ih =>
    obtain ⟨ms, hl, h⟩ := ih
    exact of_single (.subclass hkw hname hless hparent hopen h hclose)
  | moreMethods _ _ ih ih' =>
    obtain ⟨t, h⟩ := exists_single ih
    obtain ⟨trees, hl, h'⟩ := ih'
    exact ⟨t :: trees, by simp [hl], .moreMethods h h'⟩
  | funDecl hkw _ ih =>
    obtain ⟨t, h⟩ := exists_single ih
    exact of_single (.funDecl hkw h)
  | function hname hopen _ hclose _ ih ih' =>
    obtain ⟨params, -, h⟩ := ih
    obtain ⟨body, -, h'⟩ := ih'
    exact of_single (.function hname hopen h hclose h')
  | parameters _ hlen ih =>
    obtain ⟨params, hl, h⟩ := ih
    exact ⟨params, hl, .parameters h (hl ▸ hlen)⟩
  | moreNames ht hcomma _ ih =>
    obtain ⟨params, hl, h⟩ := ih
    exact ⟨_ :: params, by simp [hl], .moreNames ht hcomma h⟩
  | varDecl hkw hname hequal _ hsemi ih =>
    obtain ⟨e, h⟩ := exists_single ih
    exact of_single (.varDecl hkw hname hequal h hsemi)
  | exprStmt _ hsemi ih =>
    obtain ⟨e, h⟩ := exists_single ih
    exact of_single (.exprStmt h hsemi)
  | expressionStatement _ ih =>
    obtain ⟨t, h⟩ := exists_single ih
    exact ⟨false, t, .expressionStatement h⟩
  | forStatement hkw hopen _ _ hsemi _ hclose _ ih₁ ih₂ ih₃ ih₄ =>
    obtain ⟨start, -, h₁⟩ := ih₁
    obtain ⟨condition, -, h₂⟩ := ih₂
    obtain ⟨step, -, h₃⟩ := ih₃
    obtain ⟨d, t, h₄⟩ := ih₄
    exact ⟨d, _, .forStatement hkw hopen h₁ h₂ hsemi h₃ hclose h₄⟩
  | ifStatement hkw hopen _ hclose _ ih ih' =>
    obtain ⟨c, h⟩ := exists_single ih
    obtain ⟨d, t, h'⟩ := ih'
    exact ⟨true, _, .ifStatement hkw hopen h hclose h'⟩
  | ifElse hkw hopen _ hclose _ _ helse _ ih₁ ih₂ ih₃ =>
    obtain ⟨c, h₁⟩ := exists_single ih₁
    obtain ⟨d, t, h₂⟩ := ih₂
    obtain ⟨d', e, h₃⟩ := ih₃
    cases d with
    | false => exact ⟨d', _, .ifElse hkw hopen h₁ hclose h₂ (fun _ => rfl) helse h₃⟩
    | true =>
      obtain ⟨d, t, ht⟩ := h₂.attach rfl helse h₃
      exact ⟨true, _, .ifStatement hkw hopen h₁ hclose ht⟩
  | printStatement hkw _ hsemi ih =>
    obtain ⟨e, h⟩ := exists_single ih
    exact ⟨false, _, .printStatement hkw h hsemi⟩
  | returnStatement hkw _ hsemi ih =>
    obtain ⟨value, -, h⟩ := ih
    exact ⟨false, _, .returnStatement hkw h hsemi⟩
  | whileStatement hkw hopen _ hclose _ ih ih' =>
    obtain ⟨c, h⟩ := exists_single ih
    obtain ⟨d, t, h'⟩ := ih'
    exact ⟨d, _, .whileStatement hkw hopen h hclose h'⟩
  | blockStatement _ ih =>
    obtain ⟨body, -, h⟩ := ih
    exact ⟨false, _, .blockStatement h⟩
  | block hopen _ hclose ih =>
    obtain ⟨body, hl, h⟩ := ih
    exact ⟨body, hl, .block hopen h hclose⟩
  | startVar _ ih =>
    obtain ⟨t, h⟩ := exists_single ih
    exact of_single (.startVar h)
  | startExpression _ ih =>
    obtain ⟨t, h⟩ := exists_single ih
    exact of_single (.startExpression h)
  | clause _ ih =>
    obtain ⟨e, h⟩ := exists_single ih
    exact of_single (.clause h)
  | expression _ ih =>
    obtain ⟨e, h⟩ := exists_single ih
    exact of_single (.expression h)
  | assignName hname hequal _ ih =>
    obtain ⟨v, h⟩ := exists_single ih
    exact of_single (.assignName hname hequal h)
  | assignField _ hdot hname hequal _ ih ih' =>
    obtain ⟨o, h⟩ := exists_single ih
    obtain ⟨v, h'⟩ := exists_single ih'
    exact of_single (.assignField h hdot hname hequal h')
  | noAssignment _ ih =>
    obtain ⟨e, h⟩ := exists_single ih
    exact of_single (.noAssignment h)
  | operand _ ih =>
    obtain ⟨e, h⟩ := nearest_operand ih
    exact of_single (.operand h)
  | operator _ hop _ ih ih' =>
    obtain ⟨l, h⟩ := exists_single ih
    obtain ⟨r, h'⟩ := nearest_operand ih'
    exact of_single (.operator h hop h')
  | unary hop _ ih =>
    obtain ⟨r, h⟩ := exists_single ih
    exact of_single (.unary hop h)
  | noUnary _ ih =>
    obtain ⟨e, h⟩ := exists_single ih
    exact of_single (.noUnary h)
  | callee _ ih =>
    obtain ⟨e, h⟩ := exists_single ih
    exact of_single (.callee h)
  | call _ hopen _ hclose ih ih' =>
    obtain ⟨c, h⟩ := exists_single ih
    obtain ⟨args, -, h'⟩ := ih'
    exact of_single (.call h hopen h' hclose)
  | getField _ hdot hname ih =>
    obtain ⟨o, h⟩ := exists_single ih
    exact of_single (.getField h hdot hname)
  | arguments _ hlen ih =>
    obtain ⟨args, hl, h⟩ := ih
    exact ⟨args, hl, .arguments h (hl ▸ hlen)⟩
  | oneExpression _ ih =>
    obtain ⟨e, h⟩ := exists_single ih
    exact of_single (.oneExpression h)
  | moreExpressions _ hcomma _ ih ih' =>
    obtain ⟨e, h⟩ := exists_single ih
    obtain ⟨es, hl, h'⟩ := ih'
    exact ⟨e :: es, by simp [hl], .moreExpressions h hcomma h'⟩
  | group hopen _ hclose ih =>
    obtain ⟨e, h⟩ := exists_single ih
    exact of_single (.group hopen h hclose)
  | noDeclaration => exact ⟨[], rfl, .noDeclaration⟩
  | noMethod => exact ⟨[], rfl, .noMethod⟩
  | noParameter => exact ⟨[], rfl, .noParameter⟩
  | noStart hsemi => exact ⟨[], rfl, .noStart hsemi⟩
  | noClause => exact ⟨[], rfl, .noClause⟩
  | noArgument => exact ⟨[], rfl, .noArgument⟩
  | name ht => exact of_single (.name ht)
  | emptyVar hkw hname hsemi => exact of_single (.emptyVar hkw hname hsemi)
  | number ht => exact of_single (.number ht)
  | string ht => exact of_single (.string ht)
  | trueLiteral ht => exact of_single (.trueLiteral ht)
  | falseLiteral ht => exact of_single (.falseLiteral ht)
  | nilLiteral ht => exact of_single (.nilLiteral ht)
  | identifier ht => exact of_single (.identifier ht)
  | thisKeyword ht => exact of_single (.thisKeyword ht)
  | superMethod ht hdot hname => exact of_single (.superMethod ht hdot hname)

end LoxLang.Grammar

namespace LoxLang.Parser

open Grammar (Derives StartsWith)

variable {ts : List Token} {e : Token}

/-! ## Programs -/

/-- Nesting that is too deep has been reported. -/
def DepthReported (problems : List Diagnostic) : Prop :=
  ∃ token, .ofToken token .tooDeep ∈ problems

/-- A declaration of the program is read as it is derived, or it is nested too deeply. -/
theorem recoverDepth_complete {n room : Nat} {d : Bool} {t : Tree} {next : Token}
    {more : List Token} (h : Derives true (.declaration d) ts [t]) (hnext : next.kind ≠ .kwElse)
    (hl : (ts ++ next :: more).length ≤ n) (hs : Terminated (ts ++ next :: more))
    (ps : Array Diagnostic) :
    recoverDepth (declaration n room) ⟨ts ++ next :: more, ps⟩ = .ok t ⟨next :: more, ps⟩ ∨
      ∃ t' s', recoverDepth (declaration n room) ⟨ts ++ next :: more, ps⟩ = .ok t' s' ∧
        Terminated s'.ahead ∧ DepthReported s'.problems.toList := by
  rcases complete_of_derives h n room next more hl (fun _ => hnext) ps with hx | ⟨s, hx⟩
  · exact .inl (rescue_of_ok hx)
  · right
    obtain ⟨t', s', hr, hp, -, hdeep⟩ := recoverDepth_ok (s := ⟨ts ++ next :: more, ps⟩)
      (recovers_declaration n room) hs
    exact ⟨t', s', hr, hp.terminated, hdeep _ _ hx⟩

/-- What is reported once stays reported. -/
theorem programFrom_reported {n room left : Nat} (hleft : left ≤ n) {done : List Tree} {s : State}
    (hs : Terminated s.ahead) (h : DepthReported s.problems.toList) :
    ∃ trees s', programFrom (recoverDepth (declaration n room)) left done s = .ok trees s' ∧
      DepthReported s'.problems.toList := by
  obtain ⟨trees, s', hx, hp, -⟩ := programFrom_ok (fun s hs => by
    obtain ⟨t, s', hx, hp, hd, -⟩ := recoverDepth_ok (recovers_declaration n room) hs
    exact ⟨t, s', hx, hp, hd⟩) left hleft done s hs
  obtain ⟨token, ht⟩ := h
  exact ⟨trees, s', hx, token, hp.problems.mem ht⟩

/-- A program that is derived is read, or a part of it is nested too deeply. -/
theorem programFrom_complete (n room : Nat) (he : e.kind = .eof) :
    ∀ {ts : List Token} {trees : List Tree}, Derives true .declarations ts trees →
      ∀ (left : Nat) (done : List Tree) (ps : Array Diagnostic), (∀ t ∈ ts, t.kind ≠ .eof) →
        (ts ++ [e]).length ≤ left → left ≤ n →
        programFrom (recoverDepth (declaration n room)) left done ⟨ts ++ [e], ps⟩ =
            .ok (done.reverse ++ trees) ⟨[e], ps⟩ ∨
          ∃ trees' s', programFrom (recoverDepth (declaration n room)) left done ⟨ts ++ [e], ps⟩ =
            .ok trees' s' ∧ DepthReported s'.problems.toList
  | _, _, .noDeclaration, left, done, ps, _, hl, _ => by
    obtain ⟨left, rfl⟩ : ∃ n, left = n + 1 := ⟨left - 1, by simp at hl; omega⟩
    left
    rw [List.append_nil]
    exact itemsUntil_of_end (peek_eq rfl) (by simpa using he)
  | _, _, @Derives.moreDeclarations _ d us vs t trees h h', left, done, ps, hts, hl, hleft => by
    have hpos : 0 < us.length := List.length_pos_iff.2 (h.ne_nil rfl)
    obtain ⟨left, rfl⟩ : ∃ n, left = n + 1 := ⟨left - 1, by simp at hl; omega⟩
    obtain ⟨next, more, hrest, hnext⟩ := not_else e [] h'.declarations_startsWith (by rw [he]; decide)
    have hs : Terminated (us ++ next :: more) :=
      ⟨us ++ vs, e, by rw [← hrest, List.append_assoc], he, hts⟩
    have hl' : (us ++ next :: more).length ≤ n := by
      rw [← hrest]
      simp at hl ⊢
      omega
    have hitem : programFrom (recoverDepth (declaration n room)) (left + 1) done
        ⟨us ++ next :: more, ps⟩ = (recoverDepth (declaration n room) >>= fun tree =>
          programFrom (recoverDepth (declaration n room)) left (tree :: done))
            ⟨us ++ next :: more, ps⟩ := by
      obtain ⟨first, ws, rfl, hfirst⟩ : StartsWith us Grammar.declarationStarts :=
        h.startsWith rfl
      exact programFrom_of_token (peek_eq rfl) (not_mem_starts hfirst (by decide))
    rw [List.append_assoc, hrest, hitem]
    rcases recoverDepth_complete h hnext hl' hs ps with hx | ⟨t', s', hx, hs', hdeep⟩
    · rw [bind_of_ok hx, ← hrest]
      have hmore := programFrom_complete n room he h' left (t :: done) ps
        (fun u hu => hts u (List.mem_append_right _ hu)) (by simp at hl ⊢; omega) (by omega)
      simpa using hmore
    · rw [bind_of_ok hx]
      exact .inr (programFrom_reported (by omega) hs' hdeep)

/-- The whole program is read, and what is wrong with it is a static problem. -/
theorem program_ok (hts : ∀ t ∈ ts, t.kind ≠ .eof) (he : e.kind = .eof) (room : Nat) :
    ∃ trees s, program room (ts ++ [e]) = .ok trees s ∧
      (∀ d ∈ s.problems, d.isStatic = true) ∧
      (s.problems.toList = [] → Derives true .program ts trees) := by
  obtain ⟨trees, s, hx, hp, hd⟩ := programFrom_ok (fun s hs => by
    obtain ⟨t, s', hx, hp, hd, -⟩ :=
      recoverDepth_ok (recovers_declaration ((ts ++ [e]).length + 1) room) hs
    exact ⟨t, s', hx, hp, hd⟩) _ (Nat.le_refl _) [] { ahead := ts ++ [e] } ⟨ts, e, rfl, he, hts⟩
  refine ⟨trees, s, hx, fun d h => (hp.static d h).elim nofun id, fun hc => ?_⟩
  obtain ⟨us, more, e', hu, -, rfl, hmore⟩ := hd (Array.ext' hc) (Nat.le_succ _)
  obtain ⟨rfl, -⟩ := List.append_inj' hu rfl
  exact .program hmore

/-- A program that is derived is read as it is, or a part of it is nested too deeply. -/
theorem program_complete {trees : List Tree} (hts : ∀ t ∈ ts, t.kind ≠ .eof) (he : e.kind = .eof)
    (room : Nat) (h : Derives true .program ts trees) :
    program room (ts ++ [e]) = .ok trees ⟨[e], #[]⟩ ∨
      ∃ trees' s, program room (ts ++ [e]) = .ok trees' s ∧ DepthReported s.problems.toList := by
  obtain ⟨h⟩ := h
  exact programFrom_complete _ room he h _ [] #[] hts (Nat.le_succ _) (Nat.le_refl _)

end LoxLang.Parser

namespace LoxLang

open Grammar (Derives)

/-- The parser always gives an answer. Unless a part of the program is nested too deeply, it reports
nothing if and only if the grammar derives the tokens, in whatever way, and its statements are then
those of the only derivation in which each `else` belongs to the nearest `if`. -/
theorem parse_iff_derives {ts : List Token} {e : Token} (hts : ∀ t ∈ ts, t.kind ≠ .eof)
    (he : e.kind = .eof) :
    ∃ p, parse? (ts ++ [e]) = some p ∧ (¬Parser.DepthReported p.problems →
      (p.problems = [] ↔ ∃ trees, Derives false .program ts trees) ∧
      (p.problems = [] → ∀ trees, Derives true .program ts trees ↔ trees = p.statements)) := by
  obtain ⟨statements, s, hx, -, hsound⟩ := Parser.program_ok hts he Tree.maxDepth
  refine ⟨⟨statements, s.problems.toList⟩, by rw [parse?, hx], fun hdeep => ?_⟩
  have hcomplete : ∀ trees, Derives true .program ts trees →
      trees = statements ∧ s.problems.toList = [] := by
    intro trees h
    rcases Parser.program_complete hts he Tree.maxDepth h with hp | ⟨trees', s', hp, hreported⟩
    · cases hx.symm.trans hp
      exact ⟨rfl, rfl⟩
    · cases hx.symm.trans hp
      exact absurd hreported hdeep
  refine ⟨⟨fun hc => ⟨statements, (hsound hc).relax⟩, ?_⟩, fun hc trees => ⟨?_, ?_⟩⟩
  · rintro ⟨trees, h⟩
    obtain ⟨trees', -, h'⟩ := h.nearest
    exact (hcomplete trees' h').2
  · exact fun h => (hcomplete trees h).1
  · rintro rfl
    exact hsound hc

/-- The tokens of `if (x) if (x) x; else x;`. -/
def nestedIf : List Token :=
  [Token.Kind.kwIf, .leftParen, .identifier, .rightParen, .kwIf, .leftParen, .identifier,
    .rightParen, .identifier, .semicolon, .kwElse, .identifier, .semicolon].map
    fun kind => .ofText kind "x" .nil 1

theorem parse_nestedIf : ∃ p, parse? (nestedIf ++ [.ofText .eof "" .nil 1]) = some p ∧
    p.problems = [] ∧ (∃ trees, Derives false .program nestedIf trees) ∧
    ∀ trees, Derives true .program nestedIf trees ↔ trees = p.statements := by
  obtain ⟨p, hp, h⟩ := @parse_iff_derives nestedIf (.ofText .eof "" .nil 1) (by decide) rfl
  have hclean : p.problems = [] := by
    cases hp
    rfl
  obtain ⟨hiff, htrees⟩ := h (by simp [Parser.DepthReported, hclean])
  exact ⟨p, hp, hclean, hiff.1 hclean, htrees hclean⟩

end LoxLang
