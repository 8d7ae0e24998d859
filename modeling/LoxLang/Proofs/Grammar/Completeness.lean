import LoxLang.Proofs.Grammar.Soundness

/-!
# What is derived is read

Where the grammar derives tokens, the parser reads them and gives the tree of the derivation, unless
they are nested too deeply. `Leads` says this of one rule: it reads the tokens without a report and
goes on as another rule. `Complete` says for each symbol which rule that is, and which tokens may
come next. There is one lemma for each production, and `complete_of_derives` puts them together.

The left operand of an operator is of the level of the operator itself, but the parser reads
operands in a loop. So for a level `Complete` says how far the loop has come, and not that it has
ended. The same holds for calls and field accesses.
-/

namespace LoxLang.Parser

open Grammar (Derives Symbol StartsWith)

variable {α β : Type}

/-! ## Reading without a report -/

/-- The rule `x` reads the tokens `ts` before `rest` and goes on as `y`, unless it goes too deep. -/
def Leads (x : Parse α) (ts : List Token) (y : Parse α) (rest : List Token) : Prop :=
  ∀ ps, x ⟨ts ++ rest, ps⟩ = y ⟨rest, ps⟩ ∨ ∃ s, x ⟨ts ++ rest, ps⟩ = .error .tooDeep s

section Leads

variable {x y z : Parse α} {f : α → Parse β} {w : Parse β} {a : α} {t next : Token}
  {ts us rest more : List Token} {kind : Token.Kind} {kinds : List Token.Kind} {what : Expected}

theorem Leads.refl : Leads x [] x rest :=
  fun _ => .inl rfl

theorem leads_tooDeep : Leads (throw .tooDeep) ts y rest :=
  fun _ => .inr ⟨_, rfl⟩

/-- A rule that is out of room goes too deep, so it may be taken to have some. -/
theorem Leads.roomy {rule : Nat → Parse α} (hzero : rule 0 = throw .tooDeep)
    (h : ∀ room, Leads (rule (room + 1)) ts y rest) (room : Nat) : Leads (rule room) ts y rest := by
  cases room with
  | zero =>
    rw [hzero]
    exact leads_tooDeep
  | succ room => exact h room

theorem Leads.trans (h : Leads x ts y (us ++ rest)) (h' : Leads y us z rest) :
    Leads x (ts ++ us) z rest := by
  intro ps
  rw [List.append_assoc]
  rcases h ps with hx | ⟨s, hx⟩
  · rw [hx]
    exact h' ps
  · exact .inr ⟨s, hx⟩

theorem Leads.bind (h : Leads x ts (pure a) (us ++ rest)) (h' : Leads (f a) us w rest) :
    Leads (x >>= f) (ts ++ us) w rest := by
  intro ps
  rw [List.append_assoc]
  rcases h ps with hx | ⟨s, hx⟩
  · rw [bind_of_ok hx]
    exact h' ps
  · exact .inr ⟨s, bind_of_error hx⟩

/-- A last part that reads nothing. -/
theorem Leads.andThen (h : Leads x ts (pure a) rest) (h' : Leads (f a) [] w rest) :
    Leads (x >>= f) ts w rest := by
  have hb := Leads.bind h h'
  rwa [List.append_nil] at hb

/-- A rule goes on as one that then only looks ahead. -/
theorem Leads.settle (h : Leads x ts y rest) (h' : Leads y [] z rest) : Leads x ts z rest := by
  have ht := Leads.trans h h'
  rwa [List.append_nil] at ht

theorem Leads.map (g : α → β) (h : Leads x ts (pure a) rest) :
    Leads (g <$> x) ts (pure (g a)) rest := by
  rw [map_eq_pure_bind]
  exact h.andThen .refl

theorem Leads.expect {f : Token → Parse β} (ht : t.kind = kind) (h : Leads (f t) us w rest) :
    Leads (expect kind what >>= f) (t :: us) w rest := by
  intro ps
  rw [bind_of_ok (expect_of_eq rfl ht what)]
  exact h ps

theorem Leads.acceptSome {f : Option Token → Parse β} (ht : t.kind ∈ kinds)
    (h : Leads (f (some t)) us w rest) : Leads (accept? kinds >>= f) (t :: us) w rest := by
  intro ps
  rw [bind_of_ok (accept_of_mem rfl ht)]
  exact h ps

theorem Leads.acceptNone {f : Option Token → Parse β} (hs : ts ++ rest = next :: more)
    (ht : next.kind ∉ kinds) (h : Leads (f none) ts w rest) :
    Leads (accept? kinds >>= f) ts w rest := by
  intro ps
  rw [bind_of_ok (accept_of_not_mem hs ht)]
  exact h ps

theorem Leads.peek {f : Token → Parse β} (hs : ts ++ rest = next :: more)
    (h : Leads (f next) ts w rest) : Leads (peek >>= f) ts w rest := by
  intro ps
  rw [bind_of_ok (peek_eq hs)]
  exact h ps

theorem Leads.check {f : Bool → Parse β} (hs : ts ++ rest = next :: more)
    (h : Leads (f (next.kind == kind)) ts w rest) : Leads (check kind >>= f) ts w rest := by
  intro ps
  rw [bind_of_ok (check_eq hs)]
  exact h ps

theorem Leads.recover {x : Parse Tree} {t : Tree} (h : Leads x ts (pure t) rest) :
    Leads (recover x) ts (pure t) rest := by
  intro ps
  rcases h ps with hx | ⟨s, hx⟩
  · exact .inl (rescue_of_ok hx)
  · exact .inr ⟨s, rescue_of_error hx (by decide)⟩

end Leads

/-! ## Expressions -/

/-- The tokens that go on with an operand of the given levels. -/
def continuations : List Level → List Token.Kind
  | [] => [.leftParen, .dot]
  | level :: tighter => level.kinds ++ continuations tighter

/-- The rule reads the tokens, whatever follows them. -/
def ReadBy (rule : Nat → Nat → Parse α) (ts : List Token) (a : α) : Prop :=
  ∀ fuel room rest, (ts ++ rest).length ≤ fuel → Leads (rule fuel room) ts (pure a) rest

/-- The rule reads the tokens after a first one of the given kind. -/
def ReadAfter (kind : Token.Kind) (rule : Nat → Nat → Parse α) (ts : List Token) (a : α) : Prop :=
  ∃ kw us, ts = kw :: us ∧ kw.kind = kind ∧ ReadBy rule us a

/-- The rule reads the tokens if one of a kind with `P` follows them. -/
def ReadBefore (P : Token.Kind → Prop) (rule : Nat → Nat → Parse α) (ts : List Token) (a : α) :
    Prop :=
  ∀ fuel room next more, (ts ++ next :: more).length ≤ fuel → P next.kind →
    Leads (rule fuel room) ts (pure a) (next :: more)

/-- The parser reads the tokens as an expression. -/
def ReadAsExpression : List Token → Tree → Prop :=
  ReadBefore (· ∉ .equal :: continuations levels) expression

/-- The loop over items reads the tokens before a closing brace. -/
def ReadAsItems (item : Nat → Nat → Parse Tree) (ts : List Token) (trees : List Tree) : Prop :=
  ∀ fuel room left done next more, (ts ++ next :: more).length ≤ left → left ≤ fuel →
    next.kind = .rightBrace → Leads (itemsFrom (item fuel room) left done) ts
      (pure (done.reverse ++ trees)) (next :: more)

/-- The loop over a list with commas reads the tokens before a closing parenthesis. -/
def ReadAsListed (tooMany : Problem) (item : Nat → Nat → Parse Tree) (ts : List Token)
    (trees : List Tree) : Prop :=
  ∀ fuel room left done next more, (ts ++ next :: more).length ≤ left → left ≤ fuel →
    next.kind = .rightParen → done.length + trees.length ≤ maxArguments →
    Leads (listedFrom tooMany (item fuel room) left done) ts (pure (done.reverse ++ trees))
      (next :: more)

/-- What the parser reads for each symbol. -/
def Complete : Symbol → List Token → List Tree → Prop
  | .declarations, ts, trees => ReadAsItems declaration ts trees
  | .declaration d, ts, [t] => ReadBefore (d = true → · ≠ .kwElse) declaration ts t
  | .classDecl, ts, [t] => ReadAfter .kwClass classRule ts t
  | .methods, ts, trees => ReadAsItems (routineRule · .method) ts trees
  | .funDecl, ts, [t] => ReadAfter .kwFun (routineRule · .function) ts t
  | .function, ts, [t] => ∀ kind, ReadBy (routineRule · kind) ts t
  | .parameters, ts, trees =>
    ReadBefore (· = .rightParen) (fun fuel _ => listed fuel .tooManyParameters parameter) ts trees
  | .names, ts, trees => ReadAsListed .tooManyParameters (fun _ _ => parameter) ts trees
  | .varDecl, ts, [t] => ReadAfter .kwVar varRule ts t
  | .statement d, ts, [t] => ReadBefore (d = true → · ≠ .kwElse) statement ts t
  | .block, ts, trees => ReadAfter .leftBrace blockRule ts trees
  | .exprStmt, ts, [t] => ReadBy (valueRule .exprStmt) ts t
  | .forStart, ts, trees => ReadBy (fun fuel room =>
      forInitializer (varRule fuel room) (valueRule .exprStmt fuel room)) ts trees.head?
  | .clause, ts, trees => ts = [] ∧ trees = [] ∨
      ∃ e, trees = [e] ∧ StartsWith ts Grammar.expressionStarts ∧ ReadAsExpression ts e
  | .expression, ts, [t] => ReadAsExpression ts t
  | .assignment, ts, [t] => ReadBefore (· ∉ .equal :: continuations levels) assignment ts t
  | .binary l, ts, [t] => ∀ fuel room next more, (ts ++ next :: more).length ≤ fuel →
      next.kind ∉ continuations (below l) →
      ∃ left, (next :: more).length ≤ left ∧
        Leads (joined fuel (rule l) (operators fuel (below l) room)) ts
          (chain (rule l) (operators fuel (below l) room) left t) (next :: more)
  | .unary, ts, [t] => ReadBefore (· ∉ continuations []) (operators · []) ts t
  | .call, ts, [t] => ∀ fuel room next more, (ts ++ next :: more).length ≤ fuel →
      ∃ left, (next :: more).length ≤ left ∧
        Leads (primary (expression fuel room) >>= accesses fuel (expression fuel room) fuel) ts
          (accesses fuel (expression fuel room) left t) (next :: more)
  | .primary, ts, [t] => ReadBy (fun fuel room => primary (expression fuel room)) ts t
  | .arguments, ts, trees => ReadBefore (· = .rightParen)
      (fun fuel room => listed fuel .tooManyArguments (expression fuel room)) ts trees
  | .expressions, ts, trees => ReadAsListed .tooManyArguments expression ts trees
  | _, _, _ => True

variable {opening closing op semi : Token} {l : Grammar.Level}

section Expressions

variable {ts us : List Token} {e : Tree} {dot equal name t : Token} {v : Tree}

/-- The first token of what is derived is of none of the other kinds. -/
theorem not_mem_starts {kind : Token.Kind} {kinds : List Token.Kind} (ht : t.kind ∈ kinds)
    (hk : kind ∉ kinds) : t.kind ≠ kind :=
  fun h => hk (h ▸ ht)

/-- A loop that has a round for each token ahead has a round left. -/
theorem exists_succ {left : Nat} (hl : ts.length ≤ left) (hne : ts ≠ []) : ∃ n, left = n + 1 :=
  Nat.exists_eq_add_one.2 (Nat.lt_of_lt_of_le (List.length_pos_iff.2 hne) hl)

theorem complete_literal (ht : t.kind ∈ literalKinds) :
    Complete .primary [t] [.literal (literalValue t) none] := by
  intro fuel room rest hl
  refine .acceptSome (List.mem_append_left _ ht) ?_
  simp only [literalKinds, List.mem_cons, List.not_mem_nil, or_false] at ht
  rcases ht with h | h | h | h | h <;> simp only [h] <;> exact .refl

theorem complete_identifier (ht : t.kind = .identifier) :
    Complete .primary [t] [.ident (.token t) none] := by
  intro fuel room rest hl
  refine .acceptSome (by rw [ht]; decide) ?_
  simp only [ht]
  exact .refl

theorem complete_this (ht : t.kind = .kwThis) :
    Complete .primary [t] [.thisRef (.token t) none] := by
  intro fuel room rest hl
  refine .acceptSome (by rw [ht]; decide) ?_
  simp only [ht]
  exact .refl

theorem complete_super (ht : t.kind = .kwSuper) (hdot : dot.kind = .dot)
    (hname : name.kind = .identifier) :
    Complete .primary [t, dot, name] [.superRef (.token t) (.token name) none] := by
  intro fuel room rest hl
  refine .acceptSome (by rw [ht]; decide) ?_
  simp only [ht]
  exact .expect hdot (.expect hname .refl)

theorem complete_group (hopen : opening.kind = .leftParen) (he : Complete .expression ts [e])
    (hclose : closing.kind = .rightParen) :
    Complete .primary (opening :: (ts ++ [closing])) [.grouping e] := by
  intro fuel room rest hl
  refine .acceptSome (by rw [hopen]; decide) ?_
  simp only [hopen]
  refine .bind (he fuel room closing rest ?_ (by rw [hclose]; decide)) (.expect hclose .refl)
  simp at hl ⊢
  omega

theorem complete_callee (he : Complete .primary ts [e]) : Complete .call ts [e] := by
  intro fuel room next more hl
  refine ⟨fuel, by simp at hl ⊢; omega, ?_⟩
  exact .andThen (he fuel room _ hl) .refl

/-- A field is read after its object. -/
theorem complete_getField (ho : Complete .call ts [e]) (hdot : dot.kind = .dot)
    (hname : name.kind = .identifier) :
    Complete .call (ts ++ [dot, name]) [.getField e (.token name)] := by
  intro fuel room next more hl
  obtain ⟨left, hleft, hx⟩ := ho fuel room dot (name :: next :: more) (by simpa using hl)
  obtain ⟨left, rfl⟩ := exists_succ hleft (by simp)
  refine ⟨left, by simp at hleft ⊢; omega, .trans hx ?_⟩
  rw [accesses]
  refine .acceptSome (by rw [hdot]; decide) ?_
  simp only [hdot]
  exact .expect hname .refl

/-- A call is read after its callee. -/
theorem complete_call {args : List Tree} (hc : Complete .call ts [e])
    (hopen : opening.kind = .leftParen) (hargs : Complete .arguments us args)
    (hclose : closing.kind = .rightParen) :
    Complete .call (ts ++ opening :: (us ++ [closing])) [.call e (.token closing) (.list args)] := by
  intro fuel room next more hl
  obtain ⟨left, hleft, hx⟩ := hc fuel room opening (us ++ closing :: next :: more)
    (by simpa using hl)
  obtain ⟨left, rfl⟩ := exists_succ hleft (by simp)
  refine ⟨left, by simp at hleft ⊢; omega, .trans (by simpa using hx) ?_⟩
  rw [accesses]
  refine .acceptSome (by rw [hopen]; decide) ?_
  simp only [hopen]
  refine .bind (hargs fuel room closing (next :: more) ?_ hclose) (.expect hclose .refl)
  simp at hl ⊢
  omega

section Listed

variable {tooMany : Problem} {item : Nat → Nat → Parse Tree} {trees : List Tree}

theorem readBefore_noItem :
    ReadBefore (· = .rightParen) (fun fuel room => listed fuel tooMany (item fuel room)) []
      [] := by
  intro fuel room next more _ hnext
  refine .check rfl ?_
  rw [if_pos (by simpa using hnext)]
  exact .refl

theorem ReadAsListed.listed {kinds : List Token.Kind} (h : ReadAsListed tooMany item ts trees)
    (hs : StartsWith ts kinds) (hk : .rightParen ∉ kinds) (hlen : trees.length ≤ maxArguments) :
    ReadBefore (· = .rightParen) (fun fuel room => listed fuel tooMany (item fuel room)) ts
      trees := by
  intro fuel room next more hl hnext
  obtain ⟨t, us, rfl, ht⟩ := hs
  refine .check rfl ?_
  rw [if_neg (by simpa using not_mem_starts ht hk)]
  exact h fuel room fuel [] next more hl (Nat.le_refl _) hnext (by simpa using hlen)

/-- The item is read before a comma and before the closing parenthesis. -/
def ReadAsItem (item : Nat → Nat → Parse Tree) : List Token → Tree → Prop :=
  ReadBefore (fun kind => kind = .comma ∨ kind = .rightParen) item

theorem ReadAsItem.one (h : ReadAsItem item ts e) : ReadAsListed tooMany item ts [e] := by
  intro fuel room left done next more hl hleft hnext hlen
  obtain ⟨left, rfl⟩ := exists_succ hl (by simp)
  rw [listedFrom, if_neg (by simp at hlen; omega)]
  refine .andThen (h fuel room next more (by omega) (.inr hnext)) ?_
  refine .acceptNone rfl (by simp [hnext]) ?_
  simpa using Leads.refl

/-- A list goes on after a comma. -/
theorem ReadAsItem.more {comma : Token} (h : ReadAsItem item ts e) (hcomma : comma.kind = .comma)
    (hmore : ReadAsListed tooMany item us trees) :
    ReadAsListed tooMany item (ts ++ comma :: us) (e :: trees) := by
  intro fuel room left done next more hl hleft hnext hlen
  obtain ⟨left, rfl⟩ := exists_succ hl (by simp)
  rw [listedFrom, if_neg (by simp at hlen; omega)]
  refine .bind (h fuel room comma (us ++ next :: more) (by simp at hl ⊢; omega) (.inl hcomma))
    (.acceptSome (by simp [hcomma]) ?_)
  have hrest := hmore fuel room left (e :: done) next more (by simp at hl ⊢; omega) (by omega)
    hnext (by simp at hlen ⊢; omega)
  simpa using hrest

theorem readAsItem_expression (h : Complete .expression ts [e]) : ReadAsItem expression ts e :=
  fun fuel room next more hl hnext => h fuel room next more hl (by
    rcases hnext with hk | hk <;> rw [hk] <;> decide)

theorem readAsItem_parameter (ht : t.kind = .identifier) :
    ReadAsItem (fun _ _ => parameter) [t] (.token t) :=
  fun _ _ _ _ _ _ => .expect ht .refl

end Listed

theorem complete_unary (hop : op.kind = .bang ∨ op.kind = .minus) (he : Complete .unary ts [e]) :
    Complete .unary (op :: ts) [.unary (.token op) e] := by
  intro fuel room next more hl hnext
  refine .roomy rfl (fun room => ?_) room
  rw [operators]
  refine .acceptSome (by simpa using hop) ?_
  exact .andThen (he fuel room next more (by simp at hl ⊢; omega) hnext) .refl

/-- What starts like a primary expression has no unary operator. -/
theorem complete_noUnary (hs : StartsWith ts Grammar.primaryStarts) (he : Complete .call ts [e]) :
    Complete .unary ts [e] := by
  intro fuel room next more hl hnext
  obtain ⟨t, us, rfl, ht⟩ := hs
  refine .roomy rfl (fun room => ?_) room
  rw [operators]
  refine .acceptNone rfl ?_ ?_
  · simpa using ⟨not_mem_starts ht (by decide), not_mem_starts ht (by decide)⟩
  · rcases room with _ | _ | room
    · exact leads_tooDeep
    · exact leads_tooDeep
    · obtain ⟨left, hleft, hx⟩ := he fuel room next more hl
      obtain ⟨left, rfl⟩ := exists_succ hleft (by simp)
      rw [access]
      refine hx.settle ?_
      rw [accesses]
      exact .acceptNone rfl hnext .refl

/-- The operands of a level, read by the rules for the levels below. -/
theorem Complete.operators {sym : Symbol} {levels : List Level} (hs : sym = .unary ∧ levels = [] ∨
    ∃ l, sym = .binary l ∧ levels = rule l :: below l) (he : Complete sym ts [e]) {fuel room : Nat}
    {next : Token} {more : List Token} (hl : (ts ++ next :: more).length ≤ fuel)
    (hnext : next.kind ∉ continuations levels) :
    Leads (operators fuel levels room) ts (pure e) (next :: more) := by
  rcases hs with ⟨rfl, rfl⟩ | ⟨l, rfl, rfl⟩
  · exact he fuel room next more hl hnext
  · have hjoined (room : Nat) :
        Leads (joined fuel (rule l) (Parser.operators fuel (below l) room)) ts (pure e)
          (next :: more) := by
      simp only [continuations, List.mem_append, not_or] at hnext
      obtain ⟨left, hleft, hx⟩ := he fuel room next more hl hnext.2
      obtain ⟨left, rfl⟩ := exists_succ hleft (by simp)
      refine hx.settle ?_
      rw [chain]
      exact .acceptNone rfl hnext.1 .refl
    cases room with
    | zero =>
      rw [Parser.operators]
      exact leads_tooDeep
    | succ room =>
      unfold Parser.operators
      split
      · exact leads_tooDeep
      · exact hjoined _
      · exact hjoined _

theorem operand_cases (l : Grammar.Level) : l.operand = .unary ∧ below l = [] ∨
    ∃ l', l.operand = .binary l' ∧ below l = rule l' :: below l' := by
  cases l with
  | factor => exact .inl ⟨rfl, rfl⟩
  | _ => exact .inr ⟨_, rfl, rfl⟩

theorem complete_operand (he : Complete l.operand ts [e]) : Complete (.binary l) ts [e] := by
  intro fuel room next more hl hnext
  refine ⟨fuel, by simp at hl ⊢; omega, ?_⟩
  exact .andThen (he.operators (operand_cases l) hl hnext) .refl

/-- An operator and its right operand are read after the left operand. -/
theorem complete_operator {r : Tree} (he : Complete (.binary l) ts [e]) (hop : op.kind ∈ l.kinds)
    (hr : Complete l.operand us [r]) :
    Complete (.binary l) (ts ++ op :: us) [l.tree e (.token op) r] := by
  intro fuel room next more hl hnext
  obtain ⟨left, hleft, hx⟩ := he fuel room op (us ++ next :: more) (by simpa using hl)
    (by revert hop; cases l <;> cases op.kind <;> decide)
  obtain ⟨left, rfl⟩ := exists_succ hleft (by simp)
  refine ⟨left, by simp at hleft ⊢; omega, .trans hx ?_⟩
  rw [chain]
  refine .acceptSome (mem_rule_kinds.2 hop) (.andThen (hr.operators (operand_cases l) ?_ hnext) ?_)
  · simp at hl ⊢
    omega
  · rw [rule_tree]
    exact .refl

/-- A call or a primary expression as an operand of the loosest operators. -/
theorem Complete.toOr (hs : StartsWith ts Grammar.primaryStarts) (he : Complete .call ts [e]) :
    Complete (.binary .or) ts [e] :=
  complete_operand (l := .or) <| complete_operand (l := .and) <| complete_operand (l := .equality) <|
    complete_operand (l := .comparison) <| complete_operand (l := .term) <|
      complete_operand (l := .factor) (complete_noUnary hs he)

theorem complete_noAssignment (he : Complete (.binary .or) ts [e]) :
    Complete .assignment ts [e] := by
  intro fuel room next more hl hnext
  simp only [List.mem_cons, not_or] at hnext
  refine .roomy rfl (fun room => ?_) room
  rw [assignment]
  refine .andThen (he.operators (.inr ⟨.or, rfl, rfl⟩) hl hnext.2) ?_
  exact .acceptNone rfl (by simpa using hnext.1) .refl

/-- An assignment to a target that is read as an operand. -/
theorem complete_assignTo {target t : Tree} (htarget : Complete (.binary .or) ts [target])
    (hequal : equal.kind = .equal) (hv : Complete .assignment us [v])
    (ht : assignTo equal target v = (pure t : Parse Tree)) :
    Complete .assignment (ts ++ equal :: us) [t] := by
  intro fuel room next more hl hnext
  refine .roomy rfl (fun room => ?_) room
  rw [assignment]
  refine .bind (htarget.operators (.inr ⟨.or, rfl, rfl⟩) (by simpa using hl) ?_) ?_
  · rw [hequal]
    decide
  · refine .acceptSome (by simp [hequal]) ?_
    refine .andThen (hv fuel room next more (by simp at hl ⊢; omega) hnext) ?_
    rw [ht]
    exact .refl

theorem complete_assignName (hname : name.kind = .identifier) (hequal : equal.kind = .equal)
    (hv : Complete .assignment us [v]) :
    Complete .assignment (name :: equal :: us) [.assign (.token name) v none] := by
  have htarget : Complete (.binary .or) [name] [.ident (.token name) none] :=
    .toOr (Grammar.startsWith_cons hname (by decide) _) (complete_callee (complete_identifier hname))
  exact complete_assignTo htarget hequal hv rfl

theorem complete_assignField (hs : StartsWith ts Grammar.primaryStarts) (ho : Complete .call ts [e])
    (hdot : dot.kind = .dot) (hname : name.kind = .identifier) (hequal : equal.kind = .equal)
    (hv : Complete .assignment us [v]) :
    Complete .assignment (ts ++ dot :: name :: equal :: us) [.setField e (.token name) v] := by
  have h := complete_assignTo (.toOr (hs.append _) (complete_getField ho hdot hname)) hequal hv rfl
  simpa using h

theorem complete_expression (he : Complete .assignment ts [e]) : Complete .expression ts [e] := by
  intro fuel room next more hl hnext
  refine .roomy rfl (fun room => ?_) room
  exact he fuel room next more hl hnext

end Expressions

/-! ## Statements -/

section Statements

variable {ts us vs ws : List Token} {c e t : Tree} {d : Bool} {closing kw opening semi : Token}

theorem leads_semicolon {what : Expected} {f : Unit → Parse β} {w : Parse β} {rest : List Token}
    (hsemi : semi.kind = .semicolon) (h : Leads (f ()) us w rest) :
    Leads (semicolon what >>= f) (semi :: us) w rest := by
  have hs : Leads (semicolon what) [semi] (pure ()) (us ++ rest) := .expect hsemi .refl
  exact hs.bind h

theorem complete_exprStmt (he : Complete .expression ts [e]) (hsemi : semi.kind = .semicolon) :
    Complete .exprStmt (ts ++ [semi]) [.exprStmt e] := by
  intro fuel room rest hl
  refine .roomy rfl (fun room => ?_) room
  exact .bind (he fuel room semi rest (by simpa using hl) (by rw [hsemi]; decide))
    (leads_semicolon hsemi .refl)

/-- A `print` statement is read. -/
theorem complete_printStatement (hkw : kw.kind = .kwPrint) (he : Complete .expression ts [e])
    (hsemi : semi.kind = .semicolon) :
    Complete (.statement false) (kw :: (ts ++ [semi])) [.printStmt e] := by
  intro fuel room next more hl _
  refine .roomy rfl (fun room => ?_) room
  rw [statement]
  refine .acceptSome (by rw [hkw]; decide) ?_
  simp only [hkw, reduceCtorEq, reduceIte]
  refine .roomy rfl (fun room => ?_) room
  exact .bind (he fuel room semi (next :: more) (by simp at hl ⊢; omega)
    (by rw [hsemi]; decide)) (leads_semicolon hsemi .refl)

/-- A `return` statement is read, with a value or without. -/
theorem complete_returnStatement {value : List Tree} (hkw : kw.kind = .kwReturn)
    (hv : Complete .clause ts value) (hsemi : semi.kind = .semicolon) :
    Complete (.statement false) (kw :: (ts ++ [semi]))
      [.returnStmt (.token kw) (value.headD .null)] := by
  intro fuel room next more hl _
  refine .roomy rfl (fun room => ?_) room
  rw [statement]
  refine .acceptSome (by rw [hkw]; decide) ?_
  simp only [hkw, reduceCtorEq, reduceIte]
  refine .roomy rfl (fun room => ?_) room
  rcases hv with ⟨rfl, rfl⟩ | ⟨e, rfl, ⟨t, us, rfl, ht⟩, he⟩
  · refine .check rfl ?_
    rw [if_pos (by simpa using hsemi)]
    exact leads_semicolon hsemi .refl
  · refine .check rfl ?_
    rw [if_neg (by simpa using not_mem_starts ht (by decide))]
    exact .bind (he fuel room semi (next :: more) (by simp at hl ⊢; omega)
      (by rw [hsemi]; decide)) (leads_semicolon hsemi .refl)

/-- A `while` statement is read. -/
theorem complete_whileStatement (hkw : kw.kind = .kwWhile) (hopen : opening.kind = .leftParen)
    (hc : Complete .expression ts [c]) (hclose : closing.kind = .rightParen)
    (ht : Complete (.statement d) us [t]) :
    Complete (.statement d) (kw :: opening :: (ts ++ closing :: us)) [.whileLoop c t] := by
  intro fuel room next more hl hnext
  refine .roomy rfl (fun room => ?_) room
  rw [statement]
  refine .acceptSome (by rw [hkw]; decide) ?_
  simp only [hkw, reduceCtorEq, reduceIte]
  refine .roomy rfl (fun room => ?_) room
  refine .expect hopen (.bind (hc fuel room closing (us ++ next :: more)
    (by simp at hl ⊢; omega) (by rw [hclose]; decide)) (.expect hclose ?_))
  exact .andThen (ht fuel room next more (by simp at hl ⊢; omega) hnext) .refl

/-- An `if` statement without `else` is read. -/
theorem complete_ifStatement (hkw : kw.kind = .kwIf) (hopen : opening.kind = .leftParen)
    (hc : Complete .expression ts [c]) (hclose : closing.kind = .rightParen)
    (ht : Complete (.statement d) us [t]) :
    Complete (.statement true) (kw :: opening :: (ts ++ closing :: us)) [.ifElse c t .null] := by
  intro fuel room next more hl hnext
  refine .roomy rfl (fun room => ?_) room
  rw [statement]
  refine .acceptSome (by rw [hkw]; decide) ?_
  simp only [hkw, reduceCtorEq, reduceIte]
  refine .roomy rfl (fun room => ?_) room
  refine .expect hopen (.bind (hc fuel room closing (us ++ next :: more)
    (by simp at hl ⊢; omega) (by rw [hclose]; decide)) (.expect hclose ?_))
  refine .andThen (ht fuel room next more (by simp at hl ⊢; omega) fun _ => hnext rfl) ?_
  exact .acceptNone rfl (by simpa using hnext rfl) .refl

/-- An `if` statement is read with the `else` that is next. -/
theorem complete_ifElse {d' : Bool} {kwElse : Token} (hkw : kw.kind = .kwIf)
    (hopen : opening.kind = .leftParen) (hc : Complete .expression ts [c])
    (hclose : closing.kind = .rightParen) (ht : Complete (.statement false) us [t])
    (helse : kwElse.kind = .kwElse) (he : Complete (.statement d') vs [e]) :
    Complete (.statement d') (kw :: opening :: (ts ++ closing :: (us ++ kwElse :: vs)))
      [.ifElse c t e] := by
  intro fuel room next more hl hnext
  refine .roomy rfl (fun room => ?_) room
  rw [statement]
  refine .acceptSome (by rw [hkw]; decide) ?_
  simp only [hkw, reduceCtorEq, reduceIte]
  refine .roomy rfl (fun room => ?_) room
  have hcond := hc fuel room closing (us ++ kwElse :: vs ++ next :: more)
    (by simp at hl ⊢; omega) (by rw [hclose]; decide)
  have hthen := ht fuel room kwElse (vs ++ next :: more) (by simp at hl ⊢; omega)
    (by rintro ⟨⟩)
  have helse' := he fuel room next more (by simp at hl ⊢; omega) hnext
  refine .expect hopen (.bind hcond (.expect hclose (.bind hthen ?_)))
  refine .acceptSome (by simp [helse]) ?_
  exact .andThen helse' .refl

theorem complete_noStart (hsemi : semi.kind = .semicolon) : Complete .forStart [semi] [] := by
  intro fuel room rest _
  refine .acceptSome (by simp [hsemi]) ?_
  simp only [hsemi]
  exact .refl

theorem complete_startVar (h : Complete .varDecl ts [t]) : Complete .forStart ts [t] := by
  obtain ⟨kw, us, rfl, hkw, hv⟩ := h
  intro fuel room rest hl
  refine .acceptSome (by simp [hkw]) ?_
  simp only [hkw]
  exact (hv fuel room rest (by simp at hl ⊢; omega)).map _

theorem complete_startExpression (hs : StartsWith ts Grammar.expressionStarts)
    (h : Complete .exprStmt ts [t]) : Complete .forStart ts [t] := by
  obtain ⟨first, us, rfl, hfirst⟩ := hs
  intro fuel room rest hl
  refine .acceptNone rfl ?_ ((h fuel room rest hl).map _)
  simpa using ⟨not_mem_starts hfirst (by decide), not_mem_starts hfirst (by decide)⟩

/-- An optional clause of a `for` loop, and what follows it. -/
theorem leads_optionalBefore {clause : List Tree} (h : Complete .clause ts clause)
    {kind : Token.Kind} {fuel room : Nat} {next : Token} {rest : List Token}
    {f : Option Tree → Parse β} {w : Parse β} (hl : (ts ++ (next :: us ++ rest)).length ≤ fuel)
    (hnext : next.kind = kind) (hkind : kind ∉ .equal :: continuations levels)
    (hstart : kind ∉ Grammar.expressionStarts) (hf : Leads (f clause.head?) (next :: us) w rest) :
    Leads (optionalBefore kind (expression fuel room) >>= f) (ts ++ next :: us) w rest := by
  refine .bind ?_ hf
  rcases h with ⟨rfl, rfl⟩ | ⟨e, rfl, ⟨t, vs, rfl, ht⟩, he⟩
  · refine .check rfl ?_
    rw [if_pos (by simpa using hnext)]
    exact .refl
  · refine .check rfl ?_
    rw [if_neg (by simpa using not_mem_starts ht hstart)]
    exact (he fuel room next (us ++ rest) (by simpa using hl) (hnext ▸ hkind)).map _

theorem forLoop_eq {start condition step : List Tree} :
    lowerFor start.head? condition.head? step.head? t = Grammar.forLoop start condition step t := by
  cases start <;> cases condition <;> cases step <;> rfl

/-- A `for` statement is read and lowered. -/
theorem complete_forStatement {start condition step : List Tree} (hkw : kw.kind = .kwFor)
    (hopen : opening.kind = .leftParen) (hstart : Complete .forStart ts start)
    (hcondition : Complete .clause us condition) (hsemi : semi.kind = .semicolon)
    (hstep : Complete .clause vs step) (hclose : closing.kind = .rightParen)
    (ht : Complete (.statement d) ws [t]) :
    Complete (.statement d) (kw :: opening :: (ts ++ (us ++ semi :: (vs ++ closing :: ws))))
      [Grammar.forLoop start condition step t] := by
  intro fuel room next more hl hnext
  refine .roomy rfl (fun room => ?_) room
  rw [statement]
  refine .acceptSome (by rw [hkw]; decide) ?_
  simp only [hkw, reduceCtorEq, reduceIte]
  refine .roomy rfl (fun room => ?_) room
  have hinit := hstart fuel room (us ++ semi :: (vs ++ closing :: ws) ++ next :: more)
    (by simp at hl ⊢; omega)
  have hbody := ht fuel room next more (by simp at hl ⊢; omega) hnext
  refine .expect hopen (.bind hinit ?_)
  refine leads_optionalBefore hcondition (by simp at hl ⊢; omega) hsemi (by decide) (by decide) ?_
  refine leads_semicolon hsemi ?_
  refine leads_optionalBefore hstep (by simp at hl ⊢; omega) hclose (by decide) (by decide) ?_
  refine .expect hclose ?_
  rw [← forLoop_eq]
  exact .andThen hbody .refl

theorem complete_expressionStatement (hs : StartsWith ts Grammar.expressionStarts)
    (h : Complete .exprStmt ts [t]) : Complete (.statement false) ts [t] := by
  intro fuel room next more hl _
  obtain ⟨first, us, rfl, hfirst⟩ := hs
  refine .roomy rfl (fun room => ?_) room
  rw [statement]
  refine .acceptNone rfl ?_ (h fuel room _ hl)
  revert hfirst
  cases first.kind <;> decide

theorem complete_block {body : List Tree} (hopen : opening.kind = .leftBrace)
    (h : Complete .declarations ts body) (hclose : closing.kind = .rightBrace) :
    Complete .block (opening :: (ts ++ [closing])) body := by
  refine ⟨opening, _, rfl, hopen, fun fuel room rest hl => ?_⟩
  refine .roomy rfl (fun room => ?_) room
  have hitems := h fuel room fuel [] closing rest (by simpa using hl) (Nat.le_refl _) hclose
  exact .bind hitems (.expect hclose .refl)

theorem complete_blockStatement {body : List Tree} (h : Complete .block ts body) :
    Complete (.statement false) ts [.block (.list body)] := by
  obtain ⟨opening, us, rfl, hopen, hb⟩ := h
  intro fuel room next more hl _
  refine .roomy rfl (fun room => ?_) room
  rw [statement]
  refine .acceptSome (by rw [hopen]; decide) ?_
  simp only [hopen]
  exact .andThen (hb fuel room _ (by simp at hl ⊢; omega)) .refl

end Statements

/-! ## Declarations -/

section Declarations

variable {ts us : List Token} {e t : Tree} {d : Bool} {trees : List Tree}
  {closing kw name opening : Token}

theorem complete_emptyVar (hkw : kw.kind = .kwVar) (hname : name.kind = .identifier)
    (hsemi : semi.kind = .semicolon) :
    Complete .varDecl [kw, name, semi] [.varDecl (.token name) .null] := by
  refine ⟨kw, _, rfl, hkw, fun fuel room rest _ => ?_⟩
  refine .roomy rfl (fun room => ?_) room
  refine .expect hname (.acceptNone rfl (by simp [hsemi]) ?_)
  exact leads_semicolon hsemi .refl

theorem complete_varDecl {equal : Token} (hkw : kw.kind = .kwVar) (hname : name.kind = .identifier)
    (hequal : equal.kind = .equal) (he : Complete .expression ts [e])
    (hsemi : semi.kind = .semicolon) :
    Complete .varDecl (kw :: name :: equal :: (ts ++ [semi])) [.varDecl (.token name) e] := by
  refine ⟨kw, _, rfl, hkw, fun fuel room rest hl => ?_⟩
  refine .roomy rfl (fun room => ?_) room
  refine .expect hname (.acceptSome (by simp [hequal]) ?_)
  exact .bind (he fuel room semi rest (by simp at hl ⊢; omega) (by rw [hsemi]; decide))
    (leads_semicolon hsemi .refl)

/-- A function is read from its name on. -/
theorem complete_function {params body : List Tree} (hname : name.kind = .identifier)
    (hopen : opening.kind = .leftParen) (hparams : Complete .parameters ts params)
    (hclose : closing.kind = .rightParen) (hbody : Complete .block us body) :
    Complete .function (name :: opening :: (ts ++ closing :: us))
      [.funDecl (.token name) (.list params) (.list body)] := by
  obtain ⟨brace, us, rfl, hbrace, hb⟩ := hbody
  intro kind fuel room rest hl
  refine .roomy rfl (fun room => ?_) room
  refine .expect hname (.expect hopen (.bind (hparams fuel room closing (brace :: (us ++ rest))
    (by simp at hl ⊢; omega) hclose) (.expect hclose (.expect hbrace ?_))))
  exact .andThen (hb fuel room rest (by simp at hl ⊢; omega)) .refl

section Items

variable {item : Nat → Nat → Parse Tree}

theorem readAsItems_nil : ReadAsItems item [] [] := by
  intro fuel room left done next more hl _ hnext
  obtain ⟨left, rfl⟩ := exists_succ hl (by simp)
  rw [itemsFrom, itemsUntil, List.append_nil]
  refine .peek rfl ?_
  rw [if_pos (by simp [hnext])]
  exact .refl

/-- An item is read before the items that follow. -/
theorem ReadAsItems.cons {kinds : List Token.Kind} (hmore : ReadAsItems item us trees)
    (hs : StartsWith ts kinds) (hbrace : .rightBrace ∉ kinds) (heof : .eof ∉ kinds)
    (h : ∀ fuel room next more, (ts ++ (us ++ next :: more)).length ≤ fuel →
      next.kind = .rightBrace → Leads (item fuel room) ts (pure t) (us ++ next :: more)) :
    ReadAsItems item (ts ++ us) (t :: trees) := by
  intro fuel room left done next more hl hleft hnext
  obtain ⟨first, vs, rfl, hfirst⟩ := hs
  obtain ⟨left, rfl⟩ := exists_succ hl (by simp)
  have hitem := h fuel room next more (by simp at hl ⊢; omega) hnext
  have hrest := hmore fuel room left (t :: done) next more (by simp at hl ⊢; omega) (by omega) hnext
  rw [itemsFrom, itemsUntil]
  refine .peek rfl ?_
  rw [if_neg (by simpa using ⟨not_mem_starts hfirst hbrace, not_mem_starts hfirst heof⟩)]
  exact .bind hitem (by simpa [itemsFrom] using hrest)

end Items

/-- A declaration is followed by a brace or by another declaration, and so never by `else`. -/
theorem not_else (next : Token) (more : List Token)
    (hs : us = [] ∨ StartsWith us Grammar.declarationStarts) (hnext : next.kind ≠ .kwElse) :
    ∃ n m, us ++ next :: more = n :: m ∧ n.kind ≠ .kwElse := by
  rcases hs with rfl | ⟨first, vs, rfl, hfirst⟩
  · exact ⟨next, more, rfl, hnext⟩
  · exact ⟨first, vs ++ next :: more, rfl, not_mem_starts hfirst (by decide)⟩

theorem complete_moreDeclarations (hs : StartsWith ts Grammar.declarationStarts)
    (hs' : us = [] ∨ StartsWith us Grammar.declarationStarts)
    (h : Complete (.declaration d) ts [t]) (h' : Complete .declarations us trees) :
    Complete .declarations (ts ++ us) (t :: trees) := by
  refine ReadAsItems.cons h' hs (by decide) (by decide) fun fuel room next more hl hnext => ?_
  obtain ⟨n, m, hrest, hn⟩ := not_else next more hs' (by rw [hnext]; decide)
  rw [hrest] at hl ⊢
  exact h fuel room n m hl fun _ => hn

/-- A class, with the tokens `us` for its superclass. -/
theorem complete_class (us : List Token) {parent : Tree} (hkw : kw.kind = .kwClass)
    (hname : name.kind = .identifier)
    (hparent : ∀ rest, Leads superclass us (pure parent) (opening :: rest))
    (hopen : opening.kind = .leftBrace) (h : Complete .methods ts trees)
    (hclose : closing.kind = .rightBrace) :
    Complete .classDecl (kw :: name :: (us ++ opening :: (ts ++ [closing])))
      [.classDecl (.token name) parent (.list trees)] := by
  refine ⟨kw, _, rfl, hkw, fun fuel room rest hl => ?_⟩
  refine .roomy rfl (fun room => ?_) room
  have hitems := h fuel room fuel [] closing rest (by simp at hl ⊢; omega) (Nat.le_refl _) hclose
  refine .expect hname (.bind (hparent _) (.expect hopen ?_))
  exact .bind hitems (.expect hclose .refl)

/-- A declaration that its first token tells from the others. -/
theorem complete_declared (h : Complete .classDecl ts [t] ∨ Complete .funDecl ts [t] ∨
    Complete .varDecl ts [t]) : Complete (.declaration false) ts [t] := by
  intro fuel room next more hl _
  refine .roomy rfl (fun room => ?_) room
  rw [declaration]
  rcases h with ⟨kw, us, rfl, hkw, h⟩ | ⟨kw, us, rfl, hkw, h⟩ | ⟨kw, us, rfl, hkw, h⟩ <;>
  · refine .recover (.acceptSome (by simp [hkw]) ?_)
    simp only [hkw]
    exact h fuel room _ (by simp at hl ⊢; omega)

theorem complete_statement (hs : StartsWith ts Grammar.statementStarts)
    (h : Complete (.statement d) ts [t]) : Complete (.declaration d) ts [t] := by
  obtain ⟨first, us, rfl, hfirst⟩ := hs
  intro fuel room next more hl hnext
  refine .roomy rfl (fun room => ?_) room
  rw [declaration]
  refine .recover (.acceptNone rfl ?_ (h fuel room next more hl hnext))
  revert hfirst
  cases first.kind <;> decide

end Declarations

/-- What is derived is read. -/
theorem complete_of_derives {sym : Symbol} {ts : List Token} {trees : List Tree}
    (h : Derives true sym ts trees) : Complete sym ts trees := by
  induction h with
  | program => trivial
  | noDeclaration => exact readAsItems_nil
  | moreDeclarations h h' ih ih' =>
    exact complete_moreDeclarations (h.startsWith rfl) h'.declarations_startsWith ih ih'
  | declareClass _ ih => exact complete_declared (.inl ih)
  | declareFun _ ih => exact complete_declared (.inr (.inl ih))
  | declareVar _ ih => exact complete_declared (.inr (.inr ih))
  | statement h ih => exact complete_statement (h.startsWith rfl) ih
  | rootClass hkw hname hopen _ hclose ih =>
    exact complete_class [] hkw hname (fun _ => .acceptNone rfl (by simp [hopen]) .refl) hopen ih
      hclose
  | subclass hkw hname hless hparent hopen _ hclose ih =>
    exact complete_class [_, _] hkw hname
      (fun _ => .acceptSome (by simp [hless]) (.expect hparent .refl)) hopen ih hclose
  | noMethod => exact readAsItems_nil
  | moreMethods h _ ih ih' =>
    exact ReadAsItems.cons ih' (h.startsWith rfl) (by decide) (by decide) fun fuel room _ _ hl _ =>
      ih .method fuel room _ hl
  | funDecl hkw _ ih => exact ⟨_, _, rfl, hkw, ih .function⟩
  | function hname hopen _ hclose _ ih ih' => exact complete_function hname hopen ih hclose ih'
  | noParameter => exact readBefore_noItem
  | parameters h hlen ih => exact ReadAsListed.listed ih (h.startsWith rfl) (by decide) hlen
  | name ht => exact (readAsItem_parameter ht).one
  | moreNames ht hcomma _ ih => exact (readAsItem_parameter ht).more hcomma ih
  | emptyVar hkw hname hsemi => exact complete_emptyVar hkw hname hsemi
  | varDecl hkw hname hequal _ hsemi ih => exact complete_varDecl hkw hname hequal ih hsemi
  | exprStmt _ hsemi ih => exact complete_exprStmt ih hsemi
  | expressionStatement h ih => exact complete_expressionStatement (h.startsWith rfl) ih
  | forStatement hkw hopen _ _ hsemi _ hclose _ ih₁ ih₂ ih₃ ih₄ =>
    exact complete_forStatement hkw hopen ih₁ ih₂ hsemi ih₃ hclose ih₄
  | ifStatement hkw hopen _ hclose _ ih ih' =>
    exact complete_ifStatement hkw hopen ih hclose ih'
  | ifElse hkw hopen _ hclose _ hd helse _ ih₁ ih₂ ih₃ =>
    obtain rfl := hd rfl
    exact complete_ifElse hkw hopen ih₁ hclose ih₂ helse ih₃
  | printStatement hkw _ hsemi ih => exact complete_printStatement hkw ih hsemi
  | returnStatement hkw _ hsemi ih => exact complete_returnStatement hkw ih hsemi
  | whileStatement hkw hopen _ hclose _ ih ih' =>
    exact complete_whileStatement hkw hopen ih hclose ih'
  | blockStatement _ ih => exact complete_blockStatement ih
  | block hopen _ hclose ih => exact complete_block hopen ih hclose
  | noStart hsemi => exact complete_noStart hsemi
  | startVar _ ih => exact complete_startVar ih
  | startExpression h ih => exact complete_startExpression (h.startsWith rfl) ih
  | noClause => exact .inl ⟨rfl, rfl⟩
  | clause h ih => exact .inr ⟨_, rfl, h.startsWith rfl, ih⟩
  | expression _ ih => exact complete_expression ih
  | assignName hname hequal _ ih => exact complete_assignName hname hequal ih
  | assignField h hdot hname hequal _ ih ih' =>
    exact complete_assignField (h.startsWith rfl) ih hdot hname hequal ih'
  | noAssignment _ ih => exact complete_noAssignment ih
  | operand _ ih => exact complete_operand ih
  | operator _ hop _ ih ih' => exact complete_operator ih hop ih'
  | unary hop _ ih => exact complete_unary hop ih
  | noUnary h ih => exact complete_noUnary (h.startsWith rfl) ih
  | callee _ ih => exact complete_callee ih
  | call _ hopen _ hclose ih ih' => exact complete_call ih hopen ih' hclose
  | getField _ hdot hname ih => exact complete_getField ih hdot hname
  | noArgument => exact readBefore_noItem
  | arguments h hlen ih => exact ReadAsListed.listed ih (h.startsWith rfl) (by decide) hlen
  | oneExpression _ ih => exact (readAsItem_expression ih).one
  | moreExpressions _ hcomma _ ih ih' => exact (readAsItem_expression ih).more hcomma ih'
  | number ht | string ht | trueLiteral ht | falseLiteral ht | nilLiteral ht =>
    have h := complete_literal (by rw [ht]; decide)
    simpa only [literalValue, ht] using h
  | group hopen _ hclose ih => exact complete_group hopen ih hclose
  | identifier ht => exact complete_identifier ht
  | thisKeyword ht => exact complete_this ht
  | superMethod ht hdot hname => exact complete_super ht hdot hname

end LoxLang.Parser
