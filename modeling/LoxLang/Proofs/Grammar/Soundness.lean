import LoxLang.Proofs.Grammar
import LoxLang.Proofs.Grammar.Reading

/-!
# What the parser reads is derived

A run of the parser that reports nothing has read tokens that the grammar derives, and gives the
tree of the derivation, with each `else` at the nearest `if` (`parses_declaration`). Each rule of
the parser is proved from the rules that it calls. A chain or a list is read one item at a time, and
its proof is an induction on the number of tokens that may be left.

The parser finds out that it reads an assignment only after its target. What it took for an operand
is then looked at as a tree, and `Derives.of_ident` and `Derives.of_getField` lead back from the
tree to the tokens.
-/

namespace LoxLang.Grammar

variable {b : Bool} {sym : Symbol} {ts : List Token} {trees : List Tree}

/-! ## Derivations -/

/-- The symbols of operands, whose trees can be the target of an assignment. -/
def Symbol.isOperand : Symbol → Bool
  | .binary _ | .unary | .call | .primary => true
  | _ => false

theorem Level.isOperand_operand (l : Level) : l.operand.isOperand = true := by
  cases l <;> rfl

theorem Level.tree_eq (l : Level) : l.tree = .logical ∨ l.tree = .binary := by
  cases l
  · exact .inl rfl
  · exact .inl rfl
  all_goals exact .inr rfl

/-- An operand whose tree is a name is that name. -/
theorem Derives.of_ident {n : Tree} {d : Option Nat} (h : Derives b sym ts trees) :
    sym.isOperand = true → trees = [.ident n d] →
      ∃ t, ts = [t] ∧ t.kind = .identifier ∧ n = .token t := by
  induction h with
  | @operand level _ _ _ ih => exact fun _ => ih level.isOperand_operand
  | @operator level =>
    intro _ he
    rcases level.tree_eq with hl | hl <;> simp [hl] at he
  | noUnary _ ih => exact fun _ => ih rfl
  | callee _ ih => exact fun _ => ih rfl
  | @identifier t ht =>
    intro _ he
    simp only [List.cons.injEq, Tree.ident.injEq, and_true] at he
    exact ⟨t, rfl, ht, he.1.symm⟩
  | _ => simp_all [Symbol.isOperand]

/-- An operand whose tree is a field access ends in it. -/
theorem Derives.of_getField {o n : Tree} (h : Derives b sym ts trees) :
    sym.isOperand = true → trees = [.getField o n] →
      ∃ us dot t, ts = us ++ [dot, t] ∧ Derives b .call us [o] ∧ dot.kind = .dot ∧
        t.kind = .identifier ∧ n = .token t := by
  induction h with
  | @operand level _ _ _ ih => exact fun _ => ih level.isOperand_operand
  | @operator level =>
    intro _ he
    rcases level.tree_eq with hl | hl <;> simp [hl] at he
  | noUnary _ ih => exact fun _ => ih rfl
  | callee _ ih => exact fun _ => ih rfl
  | @getField dot name us o' ho hd hn =>
    intro _ he
    simp only [List.cons.injEq, Tree.getField.injEq, and_true] at he
    obtain ⟨rfl, rfl⟩ := he
    exact ⟨us, dot, name, rfl, ho, hd, hn, rfl⟩
  | _ => simp_all [Symbol.isOperand]

end LoxLang.Grammar

namespace LoxLang.Parser

open Grammar (Derives forLoop)

/-! ## Levels -/

/-- The rule of the parser for a level of the grammar. -/
def rule : Grammar.Level → Level
  | .or => ⟨[.kwOr], .logical, false⟩
  | .and => ⟨[.kwAnd], .logical, false⟩
  | .equality => ⟨[.bangEqual, .equalEqual], .binary, true⟩
  | .comparison => ⟨[.greater, .greaterEqual, .less, .lessEqual], .binary, true⟩
  | .term => ⟨[.minus, .plus], .binary, true⟩
  | .factor => ⟨[.slash, .star], .binary, true⟩

/-- The rules for the levels below a level. -/
def below : Grammar.Level → List Level
  | .or => [rule .and, rule .equality, rule .comparison, rule .term, rule .factor]
  | .and => [rule .equality, rule .comparison, rule .term, rule .factor]
  | .equality => [rule .comparison, rule .term, rule .factor]
  | .comparison => [rule .term, rule .factor]
  | .term => [rule .factor]
  | .factor => []

theorem mem_rule_kinds {l : Grammar.Level} {k : Token.Kind} :
    k ∈ (rule l).kinds ↔ k ∈ l.kinds := by
  cases l <;> cases k <;> decide

theorem eof_not_mem_rule (l : Grammar.Level) : .eof ∉ (rule l).kinds := by
  cases l <;> decide

theorem rule_tree (l : Grammar.Level) : (rule l).tree = l.tree := by
  cases l <;> rfl

/-! ## Expressions -/

/-- The tokens read are derived from the symbol, and stand for the tree. -/
def Reads (sym : Grammar.Symbol) (ts : List Token) (t : Tree) (_ : List Token) : Prop :=
  Derives true sym ts [t]

section Expressions

variable {n : Nat} {operand expression : Parse Tree}

/-- With no token ahead there is no run. -/
theorem Parses.few {α : Type} {x : Parse α} {D D' : List Token → α → List Token → Prop}
    (hx : Parses n x D) : Parses 0 x D' := by
  intro s hs
  refine (hx s hs).imp ?_ fun _ _ he => he
  rintro a s' ⟨hp, -⟩
  refine ⟨hp, fun _ hl => ?_⟩
  obtain ⟨t, rest, ht⟩ := hs.exists_cons
  simp [ht] at hl

/-- Operators of one level are derived to the left. -/
theorem parses_chain (l : Grammar.Level) (ho : Parses n operand (Reads l.operand)) :
    ∀ fuel ≤ n, ∀ left, Parses fuel (chain (rule l) operand fuel left) fun ts t _ =>
      ∀ us, Derives true (.binary l) us [left] → Derives true (.binary l) (us ++ ts) [t]
  | 0, _, left => by
    refine (parses_pure left).imp ?_
    rintro _ _ _ ⟨rfl, rfl⟩ us hu
    rwa [List.append_nil]
  | fuel + 1, hn, left => by
    have hchain := parses_chain l ho fuel (by omega)
    refine Parses.imp (Parses.accept (eof_not_mem_rule l) (parses_pure left) fun operator _ =>
      (ho.mono (by omega)).bind fun right => hchain _) ?_
    rintro _ t rest (⟨⟨rfl, rfl⟩, -⟩ | ⟨op, _, rfl, hop, us, right, vs, rfl, hright, hvs⟩) ws hw
    · rwa [List.append_nil]
    · have hnode : Derives true (.binary l) (ws ++ op :: us) [l.tree left (.token op) right] :=
        .operator hw (mem_rule_kinds.1 hop) hright
      rw [← rule_tree] at hnode
      simpa using hvs _ hnode

theorem parses_joined (l : Grammar.Level) (ho : Parses n operand (Reads l.operand)) :
    Parses n (joined n (rule l) operand) (Reads (.binary l)) := by
  refine (ho.bind fun first => parses_chain l ho n (Nat.le_refl n) first).imp ?_
  rintro _ t rest ⟨us, first, vs, rfl, hfirst, hvs⟩
  exact hvs us (.operand hfirst)

section Listed

variable {item : Parse Tree} {I : List Token → Tree → Prop} {S A : List Token → List Tree → Prop}
  (hi : Parses n item fun ts t _ => I ts t) (hone : ∀ ts t, I ts t → S ts [t])
  (hmore : ∀ ts t comma us trees, I ts t → comma.kind = .comma → S us trees →
    S (ts ++ comma :: us) (t :: trees)) (tooMany : Problem)

include hi hone hmore

/-- A list with commas, where `S` holds of one item and of an item before others. -/
theorem parses_listedFrom :
    ∀ fuel ≤ n, ∀ done, Parses fuel (listedFrom tooMany item fuel done) fun ts trees _ =>
      ∃ us, trees = done.reverse ++ us ∧ S ts us ∧ done.length + us.length ≤ maxArguments
  | 0, _, done => (parses_pure (n := 0) _).few
  | fuel + 1, hn, done => by
    have hrest := parses_listedFrom fuel (by omega)
    refine Parses.imp (Parses.reportIf _ _ ((hi.mono hn).bind fun tree =>
      Parses.accept (by decide) (parses_pure _) fun comma _ => hrest _)) ?_
    rintro _ _ _ ⟨hc, ts, t, _, rfl, ht, ⟨⟨rfl, rfl⟩, -⟩ | ⟨comma, us, rfl, hcomma, trees, rfl, hs,
      hlen⟩⟩
    · refine ⟨[t], by simp, ?_, by simp; omega⟩
      rw [List.append_nil]
      exact hone ts t ht
    · refine ⟨t :: trees, by simp, hmore ts t comma us trees ht (by simpa using hcomma) hs, ?_⟩
      simp only [List.length_cons] at hlen ⊢
      omega

theorem parses_listed (hnone : A [] [])
    (hsome : ∀ ts trees, S ts trees → trees.length ≤ maxArguments → A ts trees) :
    Parses n (listed n tooMany item) fun ts trees _ => A ts trees := by
  refine Parses.imp (Parses.check (parses_pure _)
    (parses_listedFrom hi hone hmore tooMany n (Nat.le_refl n) [])) ?_
  rintro ts trees _ (⟨⟨rfl, rfl⟩, -⟩ | ⟨_, rfl, hs, hlen⟩)
  · exact hnone
  · exact hsome ts trees hs (by simpa using hlen)

end Listed

/-- Accesses are derived after the expression that they belong to. -/
theorem parses_accesses (he : Parses n expression (Reads .expression)) :
    ∀ fuel ≤ n, ∀ tree, Parses fuel (accesses n expression fuel tree) fun ts t _ =>
      ∀ us, Derives true .call us [tree] → Derives true .call (us ++ ts) [t]
  | 0, _, tree => by
    refine (parses_pure tree).imp ?_
    rintro _ _ _ ⟨rfl, rfl⟩ us hu
    rwa [List.append_nil]
  | fuel + 1, hn, tree => by
    have hmore := parses_accesses he fuel (by omega)
    refine (Parses.accept (G := fun opening ts t _ => ∀ us, Derives true .call us [tree] →
      Derives true .call (us ++ opening :: ts) [t]) (by decide) (parses_pure tree)
      fun opening hk => ?_).imp ?_
    · dsimp only
      split
      · next hopen =>
        have hlist := parses_listed he (S := Derives true .expressions) (A := Derives true .arguments)
          (fun _ _ => .oneExpression) (fun _ _ _ _ _ => .moreExpressions) .tooManyArguments
          .noArgument fun _ _ => .arguments
        refine (hlist.mono (by omega) |>.bind fun passed =>
          (parses_expect (by decide) _).bind fun paren => hmore _).imp ?_
        rintro _ t rest ⟨vs, args, _, rfl, hargs, _, paren, ws, rfl, ⟨rfl, hparen⟩, hws⟩ us hu
        simpa using hws _ (.call hu (by simpa using hopen) hargs hparen)
      · next hopen =>
        have hdot : opening.kind = .dot := by simp_all
        refine ((parses_expect (by decide) _).bind fun name => hmore _).imp ?_
        rintro _ t rest ⟨_, name, ws, rfl, ⟨rfl, hname⟩, hws⟩ us hu
        simpa using hws _ (.getField hu hdot hname)
    · rintro _ t rest (⟨⟨rfl, rfl⟩, -⟩ | ⟨opening, us, rfl, -, hG⟩) ws hw
      · rwa [List.append_nil]
      · exact hG ws hw

/-- A primary expression is derived. -/
theorem parses_primary (he : Parses n expression (Reads .expression)) :
    Parses n (primary expression) (Reads .primary) := by
  refine (Parses.accept (G := fun t ts e _ => Derives true .primary (t :: ts) [e]) (by decide)
    (parses_fail (D := fun _ _ _ => False) _) fun t hk => ?_).imp ?_
  · dsimp only
    split_ifs with hsuper hthis hident hparen
    · refine ((parses_expect (by decide) _).bind fun _ => (parses_expect (by decide) _).bind
        fun method => parses_pure _).imp ?_
      rintro _ e rest ⟨_, dot, _, rfl, ⟨rfl, hdot⟩, _, name, _, rfl, ⟨rfl, hname⟩, rfl, rfl⟩
      exact .superMethod hsuper hdot hname
    · refine (parses_pure _).imp ?_
      rintro _ e rest ⟨rfl, rfl⟩
      exact .thisKeyword hthis
    · refine (parses_pure _).imp ?_
      rintro _ e rest ⟨rfl, rfl⟩
      exact .identifier hident
    · refine ((he.mono (by omega)).bind fun inner => (parses_expect (by decide) _).bind
        fun _ => parses_pure _).imp ?_
      rintro _ e rest ⟨us, inner, _, rfl, hu, _, closing, _, rfl, ⟨rfl, hclosing⟩, rfl, rfl⟩
      exact .group hparen hu hclosing
    · refine (parses_pure _).imp ?_
      rintro _ e rest ⟨rfl, rfl⟩
      have hlit : t.kind ∈ literalKinds := by
        simp only [List.mem_append, List.mem_cons, List.not_mem_nil, or_false] at hk
        rcases hk with hk | hk | hk | hk | hk
        · exact hk
        · exact absurd hk hsuper
        · exact absurd hk hthis
        · exact absurd hk hident
        · exact absurd hk hparen
      simp only [literalKinds, List.mem_cons, List.not_mem_nil, or_false] at hlit
      rcases hlit with hl | hl | hl | hl | hl
      · simpa [literalValue, hl] using (.falseLiteral hl : Derives true .primary [t] _)
      · simpa [literalValue, hl] using (.trueLiteral hl : Derives true .primary [t] _)
      · simpa [literalValue, hl] using (.nilLiteral hl : Derives true .primary [t] _)
      · simpa [literalValue, hl] using (.number hl : Derives true .primary [t] _)
      · simpa [literalValue, hl] using (.string hl : Derives true .primary [t] _)
  · rintro _ e rest (⟨h, -⟩ | ⟨t, us, rfl, -, hG⟩)
    · exact h.elim
    · exact hG

/-- If the target is no name and no field there is a report. -/
theorem parses_assignTo (equals : Token) (target value : Tree) :
    Parses n (assignTo equals target value) fun ts t _ =>
      ts = [] ∧ ∀ us vs, Derives true (.binary .or) us [target] → equals.kind = .equal →
        Derives true .assignment vs [value] → Derives true .assignment (us ++ equals :: vs) [t] := by
  unfold assignTo
  split
  · refine (parses_pure _).imp ?_
    rintro _ _ _ ⟨rfl, rfl⟩
    refine ⟨rfl, fun us vs ht he hv => ?_⟩
    obtain ⟨name, rfl, hname, rfl⟩ := ht.of_ident rfl rfl
    exact .assignName hname he hv
  · refine (parses_pure _).imp ?_
    rintro _ _ _ ⟨rfl, rfl⟩
    refine ⟨rfl, fun us vs ht he hv => ?_⟩
    obtain ⟨ws, dot, name, rfl, ho, hdot, hname, rfl⟩ := ht.of_getField rfl rfl
    simpa using Derives.assignField ho hdot hname he hv
  · exact (Parses.report equals _ (parses_pure target)).imp fun _ _ _ h => h.elim

end Expressions

mutual

/-- A unary expression is derived. -/
theorem parses_unary (fuel : Nat) :
    ∀ room, Parses fuel (operators fuel [] room) (Reads .unary)
  | 0 => by
    unfold operators
    exact parses_tooDeep
  | room + 1 => by
    unfold operators
    refine Parses.imp (Parses.accept (by decide) (parses_access fuel room) fun op _ =>
      ((parses_unary fuel room).mono (by omega)).bind fun right => parses_pure _) ?_
    rintro _ t rest (⟨h, -⟩ | ⟨op, _, rfl, hop, us, right, _, rfl, hright, rfl, rfl⟩)
    · exact .noUnary h
    · rw [List.append_nil]
      exact .unary (by simpa using hop) hright

/-- Binary expressions are derived, by induction on the room. -/
theorem parses_binary (fuel : Nat) :
    ∀ (l : Grammar.Level) (room : Nat),
      Parses fuel (operators fuel (rule l :: below l) room) (Reads (.binary l))
  | _, 0 => by
    unfold operators
    exact parses_tooDeep
  | .or, room + 1 => by
    unfold operators
    exact parses_joined .or (parses_binary fuel .and room)
  | .and, room + 1 => by
    unfold operators
    exact parses_joined .and (parses_binary fuel .equality room)
  | .equality, 1 | .comparison, 1 | .term, 1 | .factor, 1 => by
    unfold operators
    exact parses_tooDeep
  | .equality, room + 2 => by
    unfold operators
    exact parses_joined .equality (parses_binary fuel .comparison room)
  | .comparison, room + 2 => by
    unfold operators
    exact parses_joined .comparison (parses_binary fuel .term room)
  | .term, room + 2 => by
    unfold operators
    exact parses_joined .term (parses_binary fuel .factor room)
  | .factor, room + 2 => by
    unfold operators
    exact parses_joined .factor (parses_unary fuel room)

theorem parses_access (fuel : Nat) : ∀ room, Parses fuel (access fuel room) (Reads .call)
  | 0 | 1 => parses_tooDeep
  | room + 2 => by
    unfold access
    have he := parses_expression fuel room
    refine Parses.imp ((parses_primary he).bind fun first =>
      parses_accesses he fuel (Nat.le_refl fuel) first) ?_
    rintro _ t rest ⟨us, first, vs, rfl, hfirst, hvs⟩
    exact hvs us (.callee hfirst)

/-- An assignment is derived. -/
theorem parses_assignment (fuel : Nat) :
    ∀ room, Parses fuel (assignment fuel room) (Reads .assignment)
  | 0 => parses_tooDeep
  | room + 1 => by
    unfold assignment
    refine Parses.imp ((parses_binary fuel .or room).bind fun target =>
      Parses.accept (by decide) (parses_pure target) fun equals _ =>
        ((parses_assignment fuel room).mono (by omega)).bind fun value =>
          parses_assignTo equals target value) ?_
    rintro _ t rest ⟨us, target, _, rfl, ht, ⟨⟨rfl, rfl⟩, -⟩ | ⟨equals, _, rfl, he, vs, value, _,
      rfl, hv, rfl, hassign⟩⟩
    · rw [List.append_nil]
      exact .noAssignment ht
    · rw [List.append_nil]
      exact hassign us vs ht (by simpa using he) hv

theorem parses_expression (fuel : Nat) :
    ∀ room, Parses fuel (expression fuel room) (Reads .expression)
  | 0 => parses_tooDeep
  | room + 1 => (parses_assignment fuel room).imp fun _ _ _ => .expression

end

/-! ## Statements -/

/-- An `else` after a statement is no part of it. -/
def Closed (dangling : Bool) (rest : List Token) : Prop :=
  dangling = true → ∀ t ∈ rest.head?, t.kind ≠ .kwElse

/-- The tokens read are derived as a statement. -/
def ReadsStatement (ts : List Token) (t : Tree) (rest : List Token) : Prop :=
  ∃ d, Derives true (.statement d) ts [t] ∧ Closed d rest

/-- The tokens read are derived as a statement once a keyword stands before them. -/
def ReadsAfter (kind : Token.Kind) (ts : List Token) (t : Tree) (rest : List Token) : Prop :=
  ∀ kw : Token, kw.kind = kind → ReadsStatement (kw :: ts) t rest

theorem closed_false (rest : List Token) : Closed false rest := nofun

section Statements

variable {n : Nat} {expression statement : Parse Tree}

theorem parses_semicolon (what : Expected) :
    Parses n (semicolon what) fun ts _ _ => ∃ t, ts = [t] ∧ t.kind = .semicolon := by
  refine Parses.imp ((parses_expect (by decide) _).bind fun _ => parses_pure _) ?_
  rintro _ _ _ ⟨_, semi, _, rfl, ⟨rfl, hsemi⟩, rfl, -⟩
  exact ⟨semi, rfl, hsemi⟩

/-- A `return` statement is derived. -/
theorem parses_returnStatement {keyword : Token} (hkw : keyword.kind = .kwReturn)
    (he : Parses n expression (Reads .expression)) :
    Parses n (returnStatement keyword expression) fun ts t _ =>
      Derives true (.statement false) (keyword :: ts) [t] := by
  refine Parses.imp (Parses.check
    ((parses_semicolon _).bind fun _ => parses_pure _)
    (he.bind fun e => (parses_semicolon _).bind fun _ => parses_pure _)) ?_
  rintro _ _ _ (⟨⟨_, _, _, rfl, ⟨semi, rfl, hsemi⟩, rfl, rfl⟩, -⟩ |
    ⟨us, e, _, rfl, he, _, _, _, rfl, ⟨semi, rfl, hsemi⟩, rfl, rfl⟩)
  · exact .returnStatement hkw .noClause hsemi
  · exact .returnStatement hkw (.clause he) hsemi

/-- A variable is derived from its keyword on. -/
theorem parses_varDeclaration (he : Parses n expression (Reads .expression)) :
    Parses n (varDeclaration expression) fun ts t _ =>
      ∀ kw : Token, kw.kind = .kwVar → Derives true .varDecl (kw :: ts) [t] := by
  refine Parses.imp ((parses_expect (by decide) _).bind fun name =>
    Parses.accept (by decide) ((parses_semicolon _).bind fun _ => parses_pure _) fun equal _ =>
      (he.mono (by omega)).bind fun e => (parses_semicolon _).bind fun _ => parses_pure _) ?_
  rintro _ _ _ ⟨_, name, _, rfl, ⟨rfl, hname⟩,
    ⟨⟨_, _, _, rfl, ⟨semi, rfl, hsemi⟩, rfl, rfl⟩, -⟩ |
    ⟨equal, _, rfl, hequal, us, e, _, rfl, he, _, _, _, rfl, ⟨semi, rfl, hsemi⟩, rfl, rfl⟩⟩ kw hkw
  · exact .emptyVar hkw hname hsemi
  · exact .varDecl hkw hname (by simpa using hequal) he hsemi

/-- An `if` statement is derived, and it has the next `else`. -/
theorem parses_ifStatement (he : Parses n expression (Reads .expression))
    (hs : Parses n statement ReadsStatement) :
    Parses n (ifStatement expression statement) (ReadsAfter .kwIf) := by
  refine Parses.imp ((parses_expect (by decide) _).bind fun _ => he.bind fun condition =>
    (parses_expect (by decide) _).bind fun _ => hs.bind fun thenBranch =>
      Parses.accept (by decide) (parses_pure _) fun _ _ =>
        (hs.mono (by omega)).bind fun elseBranch => parses_pure _) ?_
  rintro _ _ rest ⟨_, opening, _, rfl, ⟨rfl, hopen⟩, us, c, _, rfl, hc, _, closing, _, rfl,
    ⟨rfl, hclose⟩, vs, t, _, rfl, ⟨d, ht, hd⟩, ⟨⟨rfl, rfl⟩, hnone⟩ |
    ⟨kwElse, _, rfl, helse, ws, e, _, rfl, ⟨d', he, hd'⟩, rfl, rfl⟩⟩ kw hkw
  · refine ⟨true, by simpa using Derives.ifStatement hkw hopen hc hclose ht, fun _ u hu => ?_⟩
    simpa using hnone u hu
  · have helse' : kwElse.kind = .kwElse := by simpa using helse
    refine ⟨d', ?_, hd'⟩
    have hclosed : d = false := by
      cases d with
      | false => rfl
      | true => exact absurd helse' (hd rfl kwElse rfl)
    simpa using Derives.ifElse hkw hopen hc hclose ht (fun _ => hclosed) helse' he

theorem parses_whileStatement (he : Parses n expression (Reads .expression))
    (hs : Parses n statement ReadsStatement) :
    Parses n (whileStatement expression statement) (ReadsAfter .kwWhile) := by
  refine Parses.imp ((parses_expect (by decide) _).bind fun _ => he.bind fun condition =>
    (parses_expect (by decide) _).bind fun _ => hs.bind fun body => parses_pure _) ?_
  rintro _ _ rest ⟨_, opening, _, rfl, ⟨rfl, hopen⟩, us, c, _, rfl, hc, _, closing, _, rfl,
    ⟨rfl, hclose⟩, vs, t, _, rfl, ⟨d, ht, hd⟩, rfl, rfl⟩ kw hkw
  exact ⟨d, by simpa using Derives.whileStatement hkw hopen hc hclose ht, hd⟩

theorem lowerFor_eq (start condition step : Option Tree) (body : Tree) :
    lowerFor start condition step body =
      forLoop start.toList condition.toList step.toList body := by
  cases start <;> cases condition <;> cases step <;> rfl

/-- The start of a `for` loop is derived. -/
theorem parses_forInitializer {var expr : Parse Tree}
    (hv : Parses n var fun ts t _ =>
      ∀ kw : Token, kw.kind = .kwVar → Derives true .varDecl (kw :: ts) [t])
    (he : Parses n expr (Reads .exprStmt)) :
    Parses n (forInitializer var expr) fun ts start _ =>
      Derives true .forStart ts start.toList := by
  refine Parses.imp (Parses.accept (G := fun t ts start _ =>
    Derives true .forStart (t :: ts) start.toList) (by decide) (he.map _) fun t hk => ?_) ?_
  · dsimp only
    split
    · next ht =>
      refine (parses_pure _).imp ?_
      rintro _ _ _ ⟨rfl, rfl⟩
      exact .noStart (by simpa using ht)
    · next ht =>
      refine ((hv.mono (by omega)).map _).imp ?_
      rintro _ _ _ ⟨v, rfl, hvar⟩
      exact .startVar (hvar t (by simp_all))
  · rintro _ _ _ (⟨⟨e, rfl, he⟩, -⟩ | ⟨t, us, rfl, -, hG⟩)
    · exact .startExpression he
    · exact hG

theorem parses_optionalBefore (kind : Token.Kind) (he : Parses n expression (Reads .expression)) :
    Parses n (optionalBefore kind expression) fun ts clause _ =>
      Derives true .clause ts clause.toList := by
  refine Parses.imp (Parses.check (parses_pure _) (he.map _)) ?_
  rintro _ _ _ (⟨⟨rfl, rfl⟩, -⟩ | ⟨e, rfl, he⟩)
  · exact .noClause
  · exact .clause he

/-- A `for` statement is derived from its parts. -/
theorem parses_forStatement {var expr : Parse Tree}
    (hv : Parses n var fun ts t _ =>
      ∀ kw : Token, kw.kind = .kwVar → Derives true .varDecl (kw :: ts) [t])
    (hx : Parses n expr (Reads .exprStmt)) (he : Parses n expression (Reads .expression))
    (hs : Parses n statement ReadsStatement) :
    Parses n (forStatement var expr expression statement) (ReadsAfter .kwFor) := by
  refine Parses.imp ((parses_expect (by decide) _).bind fun _ =>
    (parses_forInitializer hv hx).bind fun start =>
    (parses_optionalBefore _ he).bind fun condition => (parses_semicolon _).bind fun _ =>
    (parses_optionalBefore _ he).bind fun step => (parses_expect (by decide) _).bind fun _ =>
    hs.bind fun body => parses_pure _) ?_
  rintro _ _ rest ⟨_, opening, _, rfl, ⟨rfl, hopen⟩, ts, start, _, rfl, hstart, us, condition, _,
    rfl, hcondition, _, _, _, rfl, ⟨semi, rfl, hsemi⟩, vs, step, _, rfl, hstep, _, closing, _, rfl,
    ⟨rfl, hclose⟩, ws, body, _, rfl, ⟨d, hbody, hd⟩, rfl, rfl⟩ kw hkw
  rw [lowerFor_eq]
  refine ⟨d, ?_, hd⟩
  simpa using Derives.forStatement hkw hopen hstart hcondition hsemi hstep hclose hbody

/-- Items up to a closing brace or the end, put together by `more`. -/
theorem parses_itemsFrom {item : Parse Tree} {I : List Token → Tree → Prop}
    {L : List Token → List Tree → Prop} (hitem : Parses n item fun ts t _ => I ts t)
    (hne : ∀ ts t, I ts t → ts ≠ []) (hnil : L [] [])
    (hcons : ∀ ts t us trees, I ts t → L us trees → L (ts ++ us) (t :: trees)) :
    ∀ fuel ≤ n, ∀ done, Parses fuel (itemsFrom item fuel done) fun ts trees _ =>
      ∃ more, trees = done.reverse ++ more ∧ L ts more
  | 0, _, done => (parses_pure (n := 0) _).few
  | fuel + 1, hn, done => by
    have hmore := parses_itemsFrom hitem hne hnil hcons fuel (by omega)
    refine Parses.imp (Parses.peek (F := fun _ ts trees _ =>
      ∃ more, trees = done.reverse ++ more ∧ L ts more) fun t => ?_) ?_
    · split
      · refine (parses_pure _).imp ?_
        rintro _ _ _ ⟨rfl, rfl⟩
        exact ⟨[], by simp, hnil⟩
      · refine Parses.imp ((hitem.mono hn).bindFew ?_ fun tree => hmore _) ?_
        · intro ts t rest hi
          have := List.length_pos_iff.2 (hne _ _ hi)
          omega
        · rintro _ _ rest ⟨us, tree, vs, rfl, hi, more, rfl, hL⟩
          exact ⟨tree :: more, by simp, hcons _ _ _ _ hi hL⟩
    · rintro _ _ _ ⟨_, -, h⟩
      exact h

/-- A block is derived from its declarations. -/
theorem parses_blockItems {declaration : Parse Tree}
    (hd : Parses n declaration fun ts t _ => ∃ d, Derives true (.declaration d) ts [t]) :
    Parses n (blockItems n declaration) fun ts items _ =>
      ∀ opening : Token, opening.kind = .leftBrace → Derives true .block (opening :: ts) items := by
  have hitems := parses_itemsFrom (L := Derives true .declarations) hd
    (fun ts t ⟨d, h⟩ => h.ne_nil rfl) .noDeclaration
    (fun ts t us trees ⟨d, h⟩ hL => .moreDeclarations h hL) n (Nat.le_refl n) []
  refine Parses.imp (hitems.bind fun items => (parses_expect (by decide) _).bind fun _ =>
    parses_pure _) ?_
  rintro _ _ rest ⟨us, _, _, rfl, ⟨items, rfl, hL⟩, _, closing, _, rfl, ⟨rfl, hclose⟩, rfl,
    rfl⟩ opening hopen
  simpa using Derives.block hopen hL hclose

end Statements

/-! ## Declarations -/

section Declarations

variable {n : Nat}

/-- Parameters are derived. -/
theorem parses_parameters : Parses n (listed n .tooManyParameters parameter) fun ts ps _ =>
    Derives true .parameters ts ps := by
  have hname : Parses n parameter fun ts t _ =>
      ∃ name : Token, ts = [name] ∧ t = .token name ∧ name.kind = .identifier := by
    refine Parses.imp ((parses_expect (by decide) _).bind fun _ => parses_pure _) ?_
    rintro _ _ _ ⟨_, name, _, rfl, ⟨rfl, hname⟩, rfl, rfl⟩
    exact ⟨name, rfl, rfl, hname⟩
  refine parses_listed hname (S := Derives true .names) ?_ ?_ _ .noParameter fun _ _ => .parameters
  · rintro _ _ ⟨name, rfl, rfl, hname⟩
    exact .name hname
  · rintro _ _ comma us ps ⟨name, rfl, rfl, hname⟩
    exact .moreNames hname

/-- A function is derived from its name on. -/
theorem parses_routine {block : Parse (List Tree)} (kind : Routine)
    (hb : Parses n block fun ts items _ =>
      ∀ opening : Token, opening.kind = .leftBrace → Derives true .block (opening :: ts) items) :
    Parses n (routine n block kind) (Reads .function) := by
  refine Parses.imp ((parses_expect (by decide) _).bind fun name =>
    (parses_expect (by decide) _).bind fun _ => parses_parameters.bind fun params =>
    (parses_expect (by decide) _).bind fun _ => (parses_expect (by decide) _).bind fun _ =>
    hb.bind fun body => parses_pure _) ?_
  rintro _ _ rest ⟨_, name, _, rfl, ⟨rfl, hname⟩, _, opening, _, rfl, ⟨rfl, hopen⟩, ps, params, _,
    rfl, hparams, _, closing, _, rfl, ⟨rfl, hclose⟩, _, brace, _, rfl, ⟨rfl, hbrace⟩, ts, body, _,
    rfl, hbody, rfl, rfl⟩
  rw [List.append_nil]
  exact .function hname hopen hparams hclose (hbody brace hbrace)

theorem parses_superclass : Parses n superclass fun ts t _ => (ts = [] ∧ t = .null) ∨
    ∃ less name : Token, ts = [less, name] ∧ less.kind = .less ∧ name.kind = .identifier ∧
      t = .ident (.token name) none := by
  refine Parses.imp (Parses.accept (by decide) (parses_pure _) fun less _ =>
    (parses_expect (by decide) _).bind fun name => parses_pure _) ?_
  rintro _ _ _ (⟨h, -⟩ | ⟨less, _, rfl, hless, _, name, _, rfl, ⟨rfl, hname⟩, rfl, rfl⟩)
  · exact .inl h
  · exact .inr ⟨less, name, rfl, by simpa using hless, hname, rfl⟩

/-- A class is derived from its methods. -/
theorem parses_classDeclaration {method : Parse Tree} (hm : Parses n method (Reads .function)) :
    Parses n (classDeclaration n method) fun ts t _ =>
      ∀ kw : Token, kw.kind = .kwClass → Derives true .classDecl (kw :: ts) [t] := by
  have hitems := parses_itemsFrom (L := Derives true .methods) hm (fun ts t h => h.ne_nil rfl)
    .noMethod (fun ts t us trees h hL => .moreMethods h hL) n (Nat.le_refl n) []
  refine Parses.imp ((parses_expect (by decide) _).bind fun name =>
    parses_superclass.bind fun parent =>
    (parses_expect (by decide) _).bind fun _ => hitems.bind fun methods =>
    (parses_expect (by decide) _).bind fun _ => parses_pure _) ?_
  rintro _ _ rest ⟨_, name, _, rfl, ⟨rfl, hname⟩, _, _, _, rfl, hp, _, opening, _, rfl,
    ⟨rfl, hopen⟩, us, _, _, rfl, ⟨methods, rfl, hL⟩, _, closing, _, rfl, ⟨rfl, hclose⟩, rfl,
    rfl⟩ kw hkw
  rcases hp with ⟨rfl, rfl⟩ | ⟨less, parent, rfl, hless, hparent, rfl⟩
  · simpa using Derives.rootClass hkw hname hopen hL hclose
  · simpa using Derives.subclass hkw hname hless hparent hopen hL hclose

end Declarations

/-! ## Rules -/

theorem parses_valueRule (form : Tree → Tree) (fuel : Nat) :
    ∀ room, Parses fuel (valueRule form fuel room) fun ts t _ => ∃ us e semi, ts = us ++ [semi] ∧
      Derives true .expression us [e] ∧ semi.kind = .semicolon ∧ t = form e
  | 0 => parses_tooDeep
  | room + 1 => by
    refine Parses.imp ((parses_expression fuel room).bind fun e =>
      (parses_semicolon _).bind fun _ => parses_pure _) ?_
    rintro _ _ _ ⟨us, e, _, rfl, he, _, _, _, rfl, ⟨semi, rfl, hsemi⟩, rfl, rfl⟩
    exact ⟨us, e, semi, rfl, he, hsemi, rfl⟩

theorem parses_exprRule (fuel room : Nat) :
    Parses fuel (valueRule .exprStmt fuel room) (Reads .exprStmt) := by
  refine (parses_valueRule _ fuel room).imp ?_
  rintro _ _ _ ⟨us, e, semi, rfl, he, hsemi, rfl⟩
  exact .exprStmt he hsemi

theorem parses_returnRule (fuel : Nat) {keyword : Token} (hkw : keyword.kind = .kwReturn) :
    ∀ room, Parses fuel (returnRule fuel keyword room) fun ts t _ =>
      Derives true (.statement false) (keyword :: ts) [t]
  | 0 => parses_tooDeep
  | room + 1 => parses_returnStatement hkw (parses_expression fuel room)

theorem parses_varRule (fuel : Nat) :
    ∀ room, Parses fuel (varRule fuel room) fun ts t _ =>
      ∀ kw : Token, kw.kind = .kwVar → Derives true .varDecl (kw :: ts) [t]
  | 0 => parses_tooDeep
  | room + 1 => parses_varDeclaration (parses_expression fuel room)

/-- The tokens read are derived as a declaration. -/
def ReadsDeclaration (ts : List Token) (t : Tree) (_ : List Token) : Prop :=
  ∃ d, Derives true (.declaration d) ts [t]

mutual

theorem parses_forRule (fuel : Nat) : ∀ room, Parses fuel (forRule fuel room) (ReadsAfter .kwFor)
  | 0 => parses_tooDeep
  | room + 1 =>
    parses_forStatement (parses_varRule fuel room) (parses_exprRule fuel room)
      (parses_expression fuel room) (parses_statement fuel room)

theorem parses_ifRule (fuel : Nat) : ∀ room, Parses fuel (ifRule fuel room) (ReadsAfter .kwIf)
  | 0 => parses_tooDeep
  | room + 1 => parses_ifStatement (parses_expression fuel room) (parses_statement fuel room)

theorem parses_whileRule (fuel : Nat) :
    ∀ room, Parses fuel (whileRule fuel room) (ReadsAfter .kwWhile)
  | 0 => parses_tooDeep
  | room + 1 => parses_whileStatement (parses_expression fuel room) (parses_statement fuel room)

theorem parses_blockRule (fuel : Nat) :
    ∀ room, Parses fuel (blockRule fuel room) fun ts items _ =>
      ∀ opening : Token, opening.kind = .leftBrace → Derives true .block (opening :: ts) items
  | 0 => parses_tooDeep
  | room + 1 => parses_blockItems (recovers_declaration fuel room).parses

/-- A statement is derived. -/
theorem parses_statement (fuel : Nat) : ∀ room, Parses fuel (statement fuel room) ReadsStatement
  | 0 => parses_tooDeep
  | room + 1 => by
    unfold statement
    refine Parses.imp (Parses.accept (G := fun t ts e rest => ReadsStatement (t :: ts) e rest)
      (by decide) (parses_exprRule fuel room) fun t hk => ?_) ?_
    · dsimp only
      split_ifs with hfor hif hprint hreturn hwhile
      · exact ((parses_forRule fuel room).mono (by omega)).imp fun _ _ _ h => h t hfor
      · exact ((parses_ifRule fuel room).mono (by omega)).imp fun _ _ _ h => h t hif
      · refine ((parses_valueRule _ fuel room).mono (by omega)).imp ?_
        rintro _ _ _ ⟨us, e, semi, rfl, he, hsemi, rfl⟩
        exact ⟨false, .printStatement hprint he hsemi, closed_false _⟩
      · exact ((parses_returnRule fuel hreturn room).mono (by omega)).imp fun _ _ _ h =>
          ⟨false, h, closed_false _⟩
      · exact ((parses_whileRule fuel room).mono (by omega)).imp fun _ _ _ h => h t hwhile
      · have ht : t.kind = .leftBrace := by simp_all
        refine Parses.imp (((parses_blockRule fuel room).mono (by omega)).bind fun items =>
          parses_pure _) ?_
        rintro _ _ _ ⟨us, items, _, rfl, hblock, rfl, rfl⟩
        rw [List.append_nil]
        exact ⟨false, .blockStatement (hblock t ht), closed_false _⟩
    · rintro _ _ _ (⟨h, -⟩ | ⟨t, us, rfl, -, h⟩)
      · exact ⟨false, .expressionStatement h, closed_false _⟩
      · exact h

theorem parses_routineRule (fuel : Nat) (kind : Routine) :
    ∀ room, Parses fuel (routineRule fuel kind room) (Reads .function)
  | 0 => parses_tooDeep
  | room + 1 => parses_routine kind (parses_blockRule fuel room)

theorem parses_classRule (fuel : Nat) :
    ∀ room, Parses fuel (classRule fuel room) fun ts t _ =>
      ∀ kw : Token, kw.kind = .kwClass → Derives true .classDecl (kw :: ts) [t]
  | 0 => parses_tooDeep
  | room + 1 => parses_classDeclaration (parses_routineRule fuel .method room)

/-- A declaration is derived, or a problem is reported. -/
theorem recovers_declaration (fuel : Nat) :
    ∀ room, Recovers fuel (declaration fuel room) ReadsDeclaration
  | 0 => recovers_tooDeep
  | room + 1 => by
    unfold declaration
    refine Parses.recover ?_
    refine Parses.imp (Parses.accept (G := fun t ts e rest => ReadsDeclaration (t :: ts) e rest)
      (by decide) (parses_statement fuel room) fun t hk => ?_) ?_
    · dsimp only
      split_ifs with hclass hfun
      · exact ((parses_classRule fuel room).mono (by omega)).imp fun _ _ _ h =>
          ⟨false, .declareClass (h t hclass)⟩
      · exact ((parses_routineRule fuel .function room).mono (by omega)).imp fun _ _ _ h =>
          ⟨false, .declareFun (.funDecl hfun h)⟩
      · have ht : t.kind = .kwVar := by simp_all
        exact ((parses_varRule fuel room).mono (by omega)).imp fun _ _ _ h =>
          ⟨false, .declareVar (h t ht)⟩
    · rintro _ _ _ (⟨⟨d, h, -⟩, -⟩ | ⟨t, us, rfl, -, h⟩)
      · exact ⟨d, .statement h⟩
      · exact h

end

/-! ## Programs -/

/-- A declaration of the program always gives a tree. Where it was nested too deeply this is
reported, and stays reported. -/
theorem recoverDepth_ok {n : Nat} {x : Parse Tree} {D : List Token → Tree → List Token → Prop}
    (hx : Recovers n x D) {s : State} (hs : Terminated s.ahead) :
    ∃ t s', recoverDepth x s = .ok t s' ∧ Progress s s' ∧
      (s'.problems = s.problems → s.ahead.length ≤ n → ∃ ts, s.ahead = ts ++ s'.ahead ∧
        D ts t s'.ahead) ∧
      ∀ e s₁, x s = .error e s₁ → ∃ token, .ofToken token .tooDeep ∈ s'.problems.toList := by
  have hk := hx.parses s hs
  cases hr : x s with
  | ok t s' =>
    obtain ⟨hp, hd⟩ := hk.ok hr
    exact ⟨t, s', rescue_of_ok hr, hp, hd, nofun⟩
  | error e s₁ =>
    obtain ⟨hp, -⟩ := hk.error hr
    obtain rfl := hx.tooDeep hs hr
    obtain ⟨token, rest, ht⟩ := hp.terminated.exists_cons
    have hreport := Progress.report hp.terminated token .tooDeep
    obtain ⟨s', hsync, hp'⟩ := synchronize_ok hreport.terminated
    refine ⟨.null, s', ?_, hp.trans (hreport.trans hp'), fun hc => ?_, fun _ _ _ => ⟨token, ?_⟩⟩
    · refine (rescue_of_stop hr).trans ((bind_of_ok (peek_eq ht)).trans ?_)
      exact (bind_of_ok (report_eq _)).trans (bind_of_ok hsync)
    · obtain ⟨hc, -⟩ := (hp.trans hreport).problems_eq hp' hc
      have hle := hp.size_le
      have := congrArg Array.size hc
      simp only [Array.size_push] at this
      omega
    · exact hp'.problems.mem (by simp)

/-- The parser reads the whole program. -/
theorem programFrom_ok {n : Nat} {item : Parse Tree}
    (hitem : ∀ s : State, Terminated s.ahead → ∃ t s', item s = .ok t s' ∧ Progress s s' ∧
      (s'.problems = s.problems → s.ahead.length ≤ n → ∃ ts, s.ahead = ts ++ s'.ahead ∧
        ReadsDeclaration ts t s'.ahead)) :
    ∀ fuel ≤ n, ∀ (done : List Tree) (s : State), Terminated s.ahead →
      ∃ trees s', programFrom item fuel done s = .ok trees s' ∧ Progress s s' ∧
        (s'.problems = s.problems → s.ahead.length ≤ fuel → ∃ ts more e, s.ahead = ts ++ [e] ∧
          e.kind = .eof ∧ trees = done.reverse ++ more ∧ Derives true .declarations ts more)
  | 0, _, done, s, hs => by
    refine ⟨done.reverse, s, rfl, .refl hs, fun _ hl => ?_⟩
    obtain ⟨t, rest, ht⟩ := hs.exists_cons
    simp [ht] at hl
  | fuel + 1, hn, done, s, hs => by
    obtain ⟨e, rest, he⟩ := hs.exists_cons
    by_cases hk : e.kind = .eof
    · have hr : rest = [] := Terminated.eq_nil (he ▸ hs) hk
      exact ⟨done.reverse, s, itemsUntil_of_end (peek_eq he) (by simp [hk]), .refl hs, fun _ _ =>
        ⟨[], [], e, by rw [he, hr]; rfl, hk, by simp, .noDeclaration⟩⟩
    · rw [programFrom_of_token (peek_eq he) hk]
      obtain ⟨tree, s₁, hx, hp, hd⟩ := hitem s hs
      obtain ⟨trees, s', hx', hp', hd'⟩ :=
        programFrom_ok hitem fuel (by omega) (tree :: done) s₁ hp.terminated
      refine ⟨trees, s', (bind_of_ok hx).trans hx', hp.trans hp', fun hc hl => ?_⟩
      obtain ⟨hc, hc'⟩ := hp.problems_eq hp' hc
      obtain ⟨us, hu, d, hdecl⟩ := hd hc (by omega)
      have hpos := List.length_pos_iff.2 (hdecl.ne_nil rfl)
      rw [hu, List.length_append] at hl
      obtain ⟨ts, more, e, hts, hke, rfl, hmore⟩ := hd' hc' (by omega)
      exact ⟨us ++ ts, tree :: more, e, by rw [hu, hts, List.append_assoc], hke, by simp,
        .moreDeclarations hdecl hmore⟩

end LoxLang.Parser
