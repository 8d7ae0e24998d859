import LoxLang.Proofs.Grammar.Building
import LoxLang.Proofs.Tokens

/-!
# The shape of what is parsed

A derivation exists only where nothing is wrong. The trees that the parser gives are of the right
shape also where it has reported problems: `Shaped` says for each part of a program which trees it
can be and of what kinds their tokens are. Only a declaration can be null, in a list of
declarations, where a problem was reported.

The parser looks at the kinds of tokens and at the values of literals, and not at their texts and
lines. Two parsers whose tokens differ in nothing else go on in step, in the same rules and as deep,
and report problems at the same tokens. `Gives` says so of two parsers, and what they give: each
rule gives a shaped tree, and of changed tokens the changed tree, if the rules that it calls do. So
the trees that are parsed are shaped (`shaped_parse`), and the trees of changed tokens are the
changed trees (`parse_map`). A property that is kept by the steps that build trees holds of all
shaped trees (`Shaped.builds`).
-/

namespace LoxLang

/-- The message is one that a declaration is left out for. -/
def Diagnostic.Stops (d : Diagnostic) : Prop :=
  ∃ t problem, d = .ofToken t problem ∧ ((∃ what, problem = .expected what) ∨ problem = .tooDeep)

namespace Parser

/-- The parts of a program that the parser reads. -/
inductive Part where
  | expression
  | statement
  | declaration
  | method
deriving DecidableEq, Repr

/-- The slot holds a token of one of the kinds. -/
def Holds (K : Token → Prop) (kinds : List Token.Kind) (t : Tree) : Prop :=
  ∃ a, t = .token a ∧ K a ∧ a.kind ∈ kinds

/-- The kinds of operators between two operands that are both evaluated. -/
def binaryKinds : List Token.Kind :=
  [.bangEqual, .equalEqual, .greater, .greaterEqual, .less, .lessEqual, .minus, .plus, .slash,
    .star]

/-- The tree has the shape of a part of a program, and its tokens have `K`. -/
inductive Shaped (K : Token → Prop) : Part → Tree → Prop where
  -- expressions
  | literal {a : Token} (known : K a) (kind : a.kind ∈ literalKinds) :
      Shaped K .expression (.literal (literalValue a) none)
  /-- The condition of a loop that has none. -/
  | always : Shaped K .expression (.literal (.scalar (.bool true)) none)
  | grouping {e : Tree} : Shaped K .expression e → Shaped K .expression (.grouping e)
  | unary {op e : Tree} : Holds K [.bang, .minus] op → Shaped K .expression e →
      Shaped K .expression (.unary op e)
  | binary {op l r : Tree} : Shaped K .expression l → Holds K binaryKinds op →
      Shaped K .expression r → Shaped K .expression (.binary l op r)
  | logical {op l r : Tree} : Shaped K .expression l → Holds K [.kwOr, .kwAnd] op →
      Shaped K .expression r → Shaped K .expression (.logical l op r)
  | ident {name : Tree} : Holds K [.identifier] name → Shaped K .expression (.ident name none)
  | assign {name e : Tree} : Holds K [.identifier] name → Shaped K .expression e →
      Shaped K .expression (.assign name e none)
  | call {callee paren : Tree} {arguments : List Tree} : Shaped K .expression callee →
      Holds K [.rightParen] paren → (∀ t ∈ arguments, Shaped K .expression t) →
      Shaped K .expression (.call callee paren (.list arguments))
  | getField {object name : Tree} : Shaped K .expression object → Holds K [.identifier] name →
      Shaped K .expression (.getField object name)
  | setField {object name e : Tree} : Shaped K .expression object → Holds K [.identifier] name →
      Shaped K .expression e → Shaped K .expression (.setField object name e)
  | thisRef {keyword : Tree} : Holds K [.kwThis] keyword →
      Shaped K .expression (.thisRef keyword none)
  | superRef {keyword method : Tree} : Holds K [.kwSuper] keyword → Holds K [.identifier] method →
      Shaped K .expression (.superRef keyword method none)
  -- statements
  | exprStmt {e : Tree} : Shaped K .expression e → Shaped K .statement (.exprStmt e)
  | printStmt {e : Tree} : Shaped K .expression e → Shaped K .statement (.printStmt e)
  | block {items : List Tree} : (∀ t ∈ items, Shaped K .declaration t) →
      Shaped K .statement (.block (.list items))
  | ifOnly {c t : Tree} : Shaped K .expression c → Shaped K .statement t →
      Shaped K .statement (.ifElse c t .null)
  | ifElse {c t e : Tree} : Shaped K .expression c → Shaped K .statement t →
      Shaped K .statement e → Shaped K .statement (.ifElse c t e)
  | whileLoop {c t : Tree} : Shaped K .expression c → Shaped K .statement t →
      Shaped K .statement (.whileLoop c t)
  | emptyReturn {keyword : Tree} : Holds K [.kwReturn] keyword →
      Shaped K .statement (.returnStmt keyword .null)
  | returnStmt {keyword e : Tree} : Holds K [.kwReturn] keyword → Shaped K .expression e →
      Shaped K .statement (.returnStmt keyword e)
  -- declarations
  | null : Shaped K .declaration .null
  | statement {t : Tree} : Shaped K .statement t → Shaped K .declaration t
  | emptyVar {name : Tree} : Holds K [.identifier] name →
    Shaped K .declaration (.varDecl name .null)
  | varDecl {name e : Tree} : Holds K [.identifier] name → Shaped K .expression e →
      Shaped K .declaration (.varDecl name e)
  | method {name : Tree} {params body : List Tree} : Holds K [.identifier] name →
      (∀ t ∈ params, Holds K [.identifier] t) → (∀ t ∈ body, Shaped K .declaration t) →
      Shaped K .method (.funDecl name (.list params) (.list body))
  | funDecl {t : Tree} : Shaped K .method t → Shaped K .declaration t
  | rootClass {name : Tree} {methods : List Tree} : Holds K [.identifier] name →
      (∀ t ∈ methods, Shaped K .method t) →
      Shaped K .declaration (.classDecl name .null (.list methods))
  | subclass {name parent : Tree} {methods : List Tree} : Holds K [.identifier] name →
      Holds K [.identifier] parent → (∀ t ∈ methods, Shaped K .method t) →
      Shaped K .declaration (.classDecl name (.ident parent none) (.list methods))

section Shaped

variable {K : Token → Prop} {t : Tree}

theorem Shaped.isNull_expression (h : Shaped K .expression t) : t.isNull = false := by
  cases h <;> rfl

theorem Shaped.isNull_statement (h : Shaped K .statement t) : t.isNull = false := by
  cases h <;> rfl

theorem Shaped.declared?_expression (h : Shaped K .expression t) : t.declared? = none := by
  cases h <;> rfl

theorem Shaped.declared?_statement (h : Shaped K .statement t) : t.declared? = none := by
  cases h <;> rfl

end Shaped

/-! ## Messages -/

/-- The messages of one state come first in those of another. -/
def State.Before (s s' : State) : Prop :=
  s.problems.toList <+: s'.problems.toList

/-- The last message has been reported since, and it is one that stops a declaration. -/
def State.Stopped (s s' : State) : Prop :=
  s.problems.size < s'.problems.size ∧ ∃ d, s'.problems.back? = some d ∧ d.Stops

namespace State

variable {s s' s'' : State}

theorem Before.refl (s : State) : s.Before s :=
  List.prefix_refl _

theorem Before.trans (h : s.Before s') (h' : s'.Before s'') : s.Before s'' :=
  List.IsPrefix.trans h h'

theorem Before.of_problems_eq (h : s'.problems = s.problems) : s.Before s' :=
  ⟨[], by rw [List.append_nil, h]⟩

theorem Before.size_le (h : s.Before s') : s.problems.size ≤ s'.problems.size :=
  List.IsPrefix.length_le h

theorem Before.getElem? (h : s.Before s') {k : Nat} {d : Diagnostic}
    (hk : s.problems[k]? = some d) : s'.problems[k]? = some d := by
  obtain ⟨more, hmore⟩ := h
  have hk' : s.problems.toList[k]? = some d := by rw [Array.getElem?_toList, hk]
  rw [← Array.getElem?_toList, ← hmore,
    List.getElem?_append_left (List.getElem?_eq_some_iff.1 hk').1, hk']

theorem before_push (s : State) (d : Diagnostic) :
    s.Before { s with problems := s.problems.push d } := by
  unfold Before
  rw [Array.toList_push]
  exact List.prefix_append _ _

theorem Before.stopped (h : s.Before s') (h' : s'.Stopped s'') : s.Stopped s'' :=
  ⟨Nat.lt_of_le_of_lt h.size_le h'.1, h'.2⟩

end State

/-! ## Two parsers in step -/

/-- The change keeps what the parser looks at. -/
structure KeepsKinds (f : Token → Token) : Prop where
  kind : ∀ t, (f t).kind = t.kind
  literal : ∀ t, (f t).literal = t.literal

theorem keepsKinds_id : KeepsKinds id :=
  ⟨fun _ => rfl, fun _ => rfl⟩

/-- The second state has the changed tokens ahead, and as many problems. The tokens of the first one
have `K`. -/
structure InStep (K : Token → Prop) (f : Token → Token) (s s' : State) : Prop where
  known : ∀ t ∈ s.ahead, K t
  ahead : s'.ahead = s.ahead.map f
  problems : s'.problems.size = s.problems.size

/-- Both parsers stop for the same reason, or the first gives a result with `P` and the second the
changed result. No message is taken back, and a syntax problem that stops them is the last one. -/
inductive Both {α : Type} (K : Token → Prop) (f : Token → Token) (g : α → α) (x x' : Parse α)
    (P : α → Prop) (s s' : State) : Prop where
  | result {a : α} {s₁ s₁' : State} (left : x s = .ok a s₁) (right : x' s' = .ok (g a) s₁')
      (before : s.Before s₁) (inStep : InStep K f s₁ s₁') (holds : P a)
  | stop {e : Interrupt} {s₁ s₁' : State} (left : x s = .error e s₁) (right : x' s' = .error e s₁')
      (before : s.Before s₁) (inStep : InStep K f s₁ s₁')
      (stopped : e = .syntaxProblem → s.Stopped s₁)

/-- The same from all states in step. -/
def Gives {α : Type} (K : Token → Prop) (f : Token → Token) (g : α → α) (x x' : Parse α)
    (P : α → Prop) : Prop :=
  ∀ s s', InStep K f s s' → Both K f g x x' P s s'

section Gives

variable {α β : Type} {K : Token → Prop} {f : Token → Token} {g : α → α} {h : β → β}
  {x x' : Parse α} {k k' : α → Parse β} {P Q : α → Prop} {R : β → Prop}

theorem Gives.pure {a : α} (ha : P a) : Gives K f g (pure a) (pure (g a)) P :=
  fun _ _ hs => .result rfl rfl (.refl _) hs ha

theorem gives_tooDeep : Gives K f g (throw .tooDeep) (throw .tooDeep) P :=
  fun _ _ hs => .stop rfl rfl (.refl _) hs nofun

theorem Both.after {s₀ s s' : State} (hs : s₀.Before s) (hx : Both K f g x x' P s s') {y y' : Parse α}
    {s₀' : State} (hy : y s₀ = x s) (hy' : y' s₀' = x' s') : Both K f g y y' P s₀ s₀' := by
  cases hx with
  | result left right before inStep holds =>
    exact .result (hy.trans left) (hy'.trans right) (hs.trans before) inStep holds
  | stop left right before inStep stopped =>
    exact .stop (hy.trans left) (hy'.trans right) (hs.trans before) inStep
      fun he => hs.stopped (stopped he)

theorem Gives.bind (hx : Gives K f g x x' P) (hk : ∀ a, P a → Gives K f h (k a) (k' (g a)) R) :
    Gives K f h (x >>= k) (x' >>= k') R := by
  intro s s' hs
  cases hx s s' hs with
  | result left right before inStep holds =>
    exact (hk _ holds _ _ inStep).after before (bind_of_ok left) (bind_of_ok right)
  | stop left right before inStep stopped =>
    exact .stop (bind_of_error left) (bind_of_error right) before inStep stopped

theorem Gives.imp (hx : Gives K f g x x' P) (hQ : ∀ a, P a → Q a) : Gives K f g x x' Q := by
  intro s s' hs
  cases hx s s' hs with
  | result left right before inStep holds => exact .result left right before inStep (hQ _ holds)
  | stop left right before inStep stopped => exact .stop left right before inStep stopped

theorem Gives.map {m : α → β} (hx : Gives K f g x x' fun a => R (m a))
    (hm : ∀ a, m (g a) = h (m a)) : Gives K f h (m <$> x) (m <$> x') R := by
  have hbind (x : Parse α) : m <$> x = x >>= fun a => Pure.pure (m a) := (bind_pure_comp m x).symm
  rw [hbind, hbind]
  refine hx.bind fun a ha => ?_
  rw [hm]
  exact .pure ha

theorem gives_peek : Gives K f f peek peek K := by
  intro s s' hs
  cases ht : s.ahead with
  | nil =>
    have ht' : s'.ahead = [] := by rw [hs.ahead, ht, List.map_nil]
    exact .stop (e := .outOfTokens) (by simp [peek, ht]) (by simp [peek, ht']) (.refl s) hs nofun
  | cons t rest =>
    have ht' : s'.ahead = f t :: rest.map f := by rw [hs.ahead, ht, List.map_cons]
    exact .result (by simp only [peek, ht]) (by simp only [peek, ht']) (.refl s) hs
      (hs.known t (ht ▸ List.mem_cons_self))

theorem gives_advance : Gives K f id advance advance fun _ => True := by
  refine fun _ _ hs => .result rfl rfl (.of_problems_eq rfl) ⟨?_, ?_, hs.problems⟩ trivial
  · exact fun t ht => hs.known t (List.mem_of_mem_tail ht)
  · show List.tail _ = List.map f (List.tail _)
    rw [hs.ahead, List.map_tail]

theorem InStep.report {s s' : State} (hs : InStep K f s s') (d d' : Diagnostic) :
    InStep K f { s with problems := s.problems.push d }
      { s' with problems := s'.problems.push d' } :=
  ⟨hs.known, hs.ahead, by simp [hs.problems]⟩

theorem gives_report (t : Token) (problem : Problem) :
    Gives K f id (report t problem) (report (f t) problem) fun _ => True :=
  fun _ _ hs => .result rfl rfl (State.before_push _ _) (hs.report _ _) trivial

theorem gives_fail (what : Expected) : Gives K f g (fail what) (fail what) P := by
  refine gives_peek.bind fun t _ _ _ hs => ?_
  refine .stop rfl rfl (State.before_push _ _) (hs.report _ _) ?_
  exact fun _ => ⟨by simp, _, Array.back?_push, t, _, rfl, .inl ⟨what, rfl⟩⟩

/-- A report that depends on a condition. -/
theorem Gives.reportIf (c : Prop) [Decidable c] (problem : Problem) (hx : Gives K f g x x' P) :
    Gives K f g
      (do
        if c then
          let t ← peek
          report t problem
        x)
      (do
        if c then
          let t ← peek
          report t problem
        x') P := by
  split
  · exact gives_peek.bind fun t _ => (gives_report t problem).bind fun _ _ => hx
  · exact hx

/-- What is rescued is given, or what takes its place. -/
theorem Gives.rescue {why : Interrupt} {y y' : Parse α} (hx : Gives K f g x x' P)
    (hy : Gives K f g y y' P) :
    Gives K f g (rescue why y x) (rescue why y' x') P := by
  intro s s' hs
  cases hx s s' hs with
  | result left right before inStep holds =>
    exact .result (rescue_of_ok left) (rescue_of_ok right) before inStep holds
  | @stop e _ _ left right before inStep stopped =>
    by_cases he : e = why
    · subst he
      exact (hy _ _ inStep).after before (rescue_of_stop left) (rescue_of_stop right)
    · exact .stop (rescue_of_error left he) (rescue_of_error right he) before inStep stopped

variable (hf : KeepsKinds f)
include hf

theorem gives_check (kind : Token.Kind) :
    Gives K f id (check kind) (check kind) fun _ => True := by
  refine gives_peek.bind fun t _ => ?_
  rw [hf.kind]
  exact .pure trivial

/-- A token is taken by its kind. -/
theorem gives_accept (kinds : List Token.Kind) :
    Gives K f (Option.map f) (accept? kinds) (accept? kinds)
      fun o => ∀ t, o = some t → K t ∧ t.kind ∈ kinds := by
  refine gives_peek.bind fun t ht => ?_
  rw [hf.kind]
  split
  · next hk =>
    refine gives_advance.bind fun _ _ => .pure (a := some t) ?_
    rintro _ ⟨⟩
    exact ⟨ht, by simpa using hk⟩
  · exact .pure (a := none) nofun

/-- A token that may be there, and what follows in either case. -/
theorem Gives.accept {kinds : List Token.Kind} {k k' : Option Token → Parse β}
    (hnone : Gives K f h (k none) (k' none) R)
    (hsome : ∀ t, K t → t.kind ∈ kinds → Gives K f h (k (some t)) (k' (some (f t))) R) :
    Gives K f h (accept? kinds >>= k) (accept? kinds >>= k') R := by
  refine (gives_accept hf kinds).bind fun o ho => ?_
  cases o with
  | none => exact hnone
  | some t => exact hsome t (ho t rfl).1 (ho t rfl).2

theorem gives_expect (kind : Token.Kind) (what : Expected) :
    Gives K f f (expect kind what) (expect kind what) fun t => Holds K [kind] (.token t) := by
  refine gives_peek.bind fun t ht => ?_
  rw [hf.kind]
  split
  · next hk =>
    exact gives_advance.bind fun _ _ => .pure ⟨t, rfl, ht, by simpa using hk⟩
  · exact gives_fail what

theorem boundary_map (ts : List Token) :
    ∀ last, boundary last (ts.map f) = (boundary last ts).map f := by
  induction ts with
  | nil => exact fun _ => rfl
  | cons t ts ih =>
    intro last
    rw [List.map_cons, boundary, boundary, hf.kind, ih]
    split
    · rfl
    · rfl

omit hf in
theorem mem_of_mem_boundary {t : Token} : ∀ {last : Token.Kind} {ts : List Token},
    t ∈ boundary last ts → t ∈ ts
  | _, [], h => h
  | last, u :: ts, h => by
    unfold boundary at h
    split at h
    · exact h
    · exact List.mem_cons_of_mem _ (mem_of_mem_boundary h)

/-- Going on behind the next boundary. -/
def skip (last : Token.Kind) : Parse Unit := fun s =>
  match boundary last s.ahead.tail with
  | [] => .error .outOfTokens { s with ahead := [] }
  | ahead => .ok () { s with ahead }

/-- Synchronizing looks at the kinds of tokens only. -/
theorem gives_synchronize : Gives K f id synchronize synchronize fun _ => True := by
  refine gives_peek.bind fun t _ => ?_
  rw [hf.kind]
  cases t.kind == .eof with
  | true => exact .pure trivial
  | false =>
    intro s s' hs
    have hb' : boundary t.kind s'.ahead.tail = (boundary t.kind s.ahead.tail).map f := by
      rw [hs.ahead, ← List.map_tail, boundary_map hf]
    have hmem : ∀ u ∈ boundary t.kind s.ahead.tail, K u := fun u hu =>
      hs.known u (List.mem_of_mem_tail (mem_of_mem_boundary hu))
    cases hb : boundary t.kind s.ahead.tail with
    | nil =>
      rw [hb] at hb'
      have hends (s : State) (h : boundary t.kind s.ahead.tail = []) :
          skip t.kind s = .error .outOfTokens { s with ahead := [] } := by simp only [skip, h]
      exact .stop (hends s hb) (hends s' hb') (.of_problems_eq rfl) ⟨nofun, rfl, hs.problems⟩ nofun
    | cons u rest =>
      rw [hb] at hb' hmem
      have hgoes (s : State) {u : Token} {rest : List Token}
          (h : boundary t.kind s.ahead.tail = u :: rest) :
          skip t.kind s = .ok () { s with ahead := u :: rest } := by simp only [skip, h]
      exact .result (hgoes s hb) (hgoes s' hb') (.of_problems_eq rfl) ⟨hmem, rfl, hs.problems⟩
        trivial

/-- The rule gives a tree of a part of the program, and of changed tokens the changed tree. -/
abbrev GivesPart (K : Token → Prop) (f : Token → Token) (part : Part) (x : Parse Tree) : Prop :=
  Gives K f (Tree.mapTokens f) x x (Shaped K part)

/-- A null declaration that is made up after a stop. -/
theorem gives_null : GivesPart K f .declaration (do synchronize; return .null) :=
  (gives_synchronize hf).bind fun _ _ => .pure (a := Tree.null) .null

end Gives

/-! ## Rules -/

section Rules

variable {K : Token → Prop} {f : Token → Token} (hf : KeepsKinds f)
  {x operand expression statement : Parse Tree}
include hf

/-- The rule gives lists of trees of a part of the program. -/
abbrev GivesParts (K : Token → Prop) (f : Token → Token) (part : Part) (x : Parse (List Tree)) :
    Prop :=
  Gives K f (List.map (Tree.mapTokens f)) x x fun ts => ∀ t ∈ ts, Shaped K part t

omit hf in
/-- The trees that have been read, which are held last one first. -/
theorem Gives.done {S : Tree → Prop} {done : List Tree} (h : ∀ t ∈ done, S t) :
    Gives K f (List.map (Tree.mapTokens f)) (Pure.pure done.reverse)
      (Pure.pure (done.map (Tree.mapTokens f)).reverse) fun ts => ∀ t ∈ ts, S t := by
  rw [← List.map_reverse]
  exact .pure fun t ht => h t (List.mem_reverse.1 ht)

/-- An operator of the level makes an expression of two. -/
def Level.Makes (K : Token → Prop) (f : Token → Token) (level : Level) : Prop :=
  ∀ {l r : Tree} {a : Token}, Shaped K .expression l → K a → a.kind ∈ level.kinds →
    Shaped K .expression r → Shaped K .expression (level.tree l (.token a) r) ∧
      (level.tree l (.token a) r).mapTokens f =
        level.tree (l.mapTokens f) (.token (f a)) (r.mapTokens f)

omit hf in
/-- All levels of operators make expressions. -/
theorem makes_levels : ∀ level ∈ levels, level.Makes K f := by
  have hlogical {kinds : List Token.Kind} {twofold : Bool} (h : ∀ k ∈ kinds, k ∈ [.kwOr, .kwAnd]) :
      Level.Makes K f ⟨kinds, .logical, twofold⟩ :=
    fun hl ha hk hr => ⟨.logical hl ⟨_, rfl, ha, h _ hk⟩ hr, rfl⟩
  have hbinary {kinds : List Token.Kind} {twofold : Bool} (h : ∀ k ∈ kinds, k ∈ binaryKinds) :
      Level.Makes K f ⟨kinds, .binary, twofold⟩ :=
    fun hl ha hk hr => ⟨.binary hl ⟨_, rfl, ha, h _ hk⟩ hr, rfl⟩
  intro level hmem
  simp only [levels, List.mem_cons, List.not_mem_nil, or_false] at hmem
  rcases hmem with rfl | rfl | rfl | rfl | rfl | rfl
  · exact hlogical (by decide)
  · exact hlogical (by decide)
  all_goals exact hbinary (by decide)

/-- Operators of one level give an expression. -/
theorem gives_chain {level : Level} (hlevel : level.Makes K f)
    (h : GivesPart K f .expression operand) :
    ∀ (fuel : Nat) {left : Tree}, Shaped K .expression left →
      Gives K f (Tree.mapTokens f) (chain level operand fuel left)
        (chain level operand fuel (left.mapTokens f)) (Shaped K .expression)
  | 0, _, hl => .pure hl
  | fuel + 1, _, hl => by
    refine .accept hf (.pure hl) fun _ ht hk => h.bind fun _ hr => ?_
    obtain ⟨hmade, hmap⟩ := hlevel hl ht hk hr
    have hchain := gives_chain hlevel h fuel hmade
    rw [hmap] at hchain
    exact hchain

theorem gives_joined {level : Level} (hlevel : level.Makes K f)
    (h : GivesPart K f .expression operand) (fuel : Nat) :
    GivesPart K f .expression (joined fuel level operand) :=
  h.bind fun _ hl => gives_chain hf hlevel h fuel hl

theorem gives_listedFrom {P : Tree → Prop} {item : Parse Tree}
    (h : Gives K f (Tree.mapTokens f) item item P) (tooMany : Problem) :
    ∀ (fuel : Nat) {done : List Tree}, (∀ t ∈ done, P t) →
      Gives K f (List.map (Tree.mapTokens f)) (listedFrom tooMany item fuel done)
        (listedFrom tooMany item fuel (done.map (Tree.mapTokens f))) fun ts => ∀ t ∈ ts, P t
  | 0, _, hd => .done hd
  | fuel + 1, _, hd => by
    unfold listedFrom
    rw [List.length_map]
    refine .reportIf _ _ (h.bind fun t ht => ?_)
    have hmore := List.forall_mem_cons.2 ⟨ht, hd⟩
    exact .accept hf (.done hmore) fun _ _ _ => gives_listedFrom h tooMany fuel hmore

theorem gives_listed {P : Tree → Prop} {item : Parse Tree}
    (h : Gives K f (Tree.mapTokens f) item item P) (fuel : Nat) (tooMany : Problem) :
    Gives K f (List.map (Tree.mapTokens f)) (listed fuel tooMany item) (listed fuel tooMany item)
      fun ts => ∀ t ∈ ts, P t := by
  refine (gives_check hf _).bind fun b _ => ?_
  cases b with
  | true => exact .pure nofun
  | false => exact gives_listedFrom hf h tooMany fuel nofun

/-- Accesses give expressions. -/
theorem gives_accesses (loop : Nat) (h : GivesPart K f .expression expression) :
    ∀ (fuel : Nat) {tree : Tree}, Shaped K .expression tree →
      Gives K f (Tree.mapTokens f) (accesses loop expression fuel tree)
        (accesses loop expression fuel (tree.mapTokens f)) (Shaped K .expression)
  | 0, _, ht => .pure ht
  | fuel + 1, _, ht => by
    refine .accept hf (.pure ht) fun a _ _ => ?_
    dsimp only
    rw [hf.kind]
    split
    · refine (gives_listed hf h loop _).bind fun args hargs => ?_
      refine (gives_expect hf _ _).bind fun p hp => ?_
      have hmore := gives_accesses loop h fuel (.call ht hp hargs)
      simp only [Tree.mapTokens, Tree.mapTokensIn_eq] at hmore
      exact hmore
    · exact (gives_expect hf _ _).bind fun n hn => gives_accesses loop h fuel (.getField ht hn)

theorem literalValue_map (t : Token) : literalValue (f t) = (literalValue t).mapTokens f := by
  unfold literalValue
  rw [hf.kind, hf.literal]
  split
  · rfl
  · rfl
  · rfl
  · rw [Tree.mapTokens_ofJson]

/-- A primary expression is an expression. -/
theorem gives_primary (h : GivesPart K f .expression expression) :
    GivesPart K f .expression (primary expression) := by
  refine .accept hf (gives_fail _) fun t ht hk => ?_
  have holds {kind : Token.Kind} (hkind : t.kind = kind) : Holds K [kind] (.token t) :=
    ⟨t, rfl, ht, by simp [hkind]⟩
  have hvalue := literalValue_map hf t
  dsimp only
  rw [hf.kind]
  split_ifs with hsuper hthis hident hparen
  · refine (gives_expect hf _ _).bind fun _ _ => (gives_expect hf _ _).bind fun m hm => ?_
    exact .pure (.superRef (holds hsuper) hm)
  · exact .pure (.thisRef (holds hthis))
  · exact .pure (.ident (holds hident))
  · exact h.bind fun e he => (gives_expect hf _ _).bind fun _ _ => .pure (.grouping he)
  · rw [hvalue]
    refine .pure (.literal ht ?_)
    simp only [List.mem_append, List.mem_cons, List.not_mem_nil, or_false] at hk
    rcases hk with hk | hk | hk | hk | hk
    · exact hk
    · exact absurd hk hsuper
    · exact absurd hk hthis
    · exact absurd hk hident
    · exact absurd hk hparen

omit hf in
theorem gives_assignTo (equals : Token) {target value : Tree} (ht : Shaped K .expression target)
    (hv : Shaped K .expression value) :
    Gives K f (Tree.mapTokens f) (assignTo equals target value)
      (assignTo (f equals) (target.mapTokens f) (value.mapTokens f)) (Shaped K .expression) := by
  cases ht with
  | ident hn => exact .pure (.assign hn hv)
  | getField ho hn => exact .pure (.setField ho hn hv)
  | _ => exact (gives_report _ _).bind fun _ _ => .pure (by constructor <;> assumption)

/-- The rules of expressions. The room of each is smaller than that of the rule that calls it. -/
theorem gives_expressions (fuel room : Nat) :
    (∀ ls, (∀ level ∈ ls, level.Makes K f) → GivesPart K f .expression (operators fuel ls room)) ∧
    GivesPart K f .expression (access fuel room) ∧
    GivesPart K f .expression (assignment fuel room) ∧
    GivesPart K f .expression (Parser.expression fuel room) := by
  induction room using Nat.strongRecOn with
  | _ room ih =>
  cases room with
  | zero =>
    refine ⟨fun ls _ => ?_, ?_, ?_, ?_⟩
    · unfold operators
      exact gives_tooDeep
    · unfold access
      exact gives_tooDeep
    · unfold assignment
      exact gives_tooDeep
    · unfold Parser.expression
      exact gives_tooDeep
  | succ room =>
    obtain ⟨hoperators, haccess, hassignment, -⟩ := ih room (Nat.lt_add_one room)
    refine ⟨fun ls hls => ?_, ?_, ?_, ?_⟩
    · cases ls with
      | nil =>
        unfold operators
        refine .accept hf haccess fun t ht hk => ?_
        exact (hoperators [] hls).bind fun r hr => .pure (.unary ⟨t, rfl, ht, hk⟩ hr)
      | cons level tighter =>
        obtain ⟨hlevel, htighter⟩ := List.forall_mem_cons.1 hls
        unfold operators
        split
        · exact gives_tooDeep
        · next inner _ =>
          exact gives_joined hf hlevel ((ih inner (by omega)).1 tighter htighter) fuel
        · exact gives_joined hf hlevel (hoperators tighter htighter) fuel
    · cases room with
      | zero =>
        unfold access
        exact gives_tooDeep
      | succ inner =>
        have hexpression := (ih inner (by omega)).2.2.2
        unfold access
        exact (gives_primary hf hexpression).bind fun e he =>
          gives_accesses hf fuel hexpression fuel he
    · unfold assignment
      refine (hoperators levels makes_levels).bind fun target ht => ?_
      refine .accept hf (.pure ht) fun equals _ _ => ?_
      exact hassignment.bind fun value hv => gives_assignTo equals ht hv
    · unfold Parser.expression
      exact hassignment

theorem gives_expression (fuel room : Nat) :
    GivesPart K f .expression (Parser.expression fuel room) :=
  (gives_expressions hf fuel room).2.2.2

theorem gives_semicolon (what : Expected) :
    Gives K f id (semicolon what) (semicolon what) fun _ => True :=
  (gives_expect hf _ _).bind fun _ _ => .pure trivial

theorem gives_returnStatement {keyword : Token} (hk : Holds K [.kwReturn] (.token keyword))
    (h : GivesPart K f .expression expression) :
    Gives K f (Tree.mapTokens f) (returnStatement keyword expression)
      (returnStatement (f keyword) expression) (Shaped K .statement) := by
  refine (gives_check hf _).bind fun b _ => ?_
  cases b with
  | true => exact (gives_semicolon hf _).bind fun _ _ => .pure (.emptyReturn hk)
  | false =>
    exact h.bind fun v hv => (gives_semicolon hf _).bind fun _ _ => .pure (.returnStmt hk hv)

theorem gives_varDeclaration (h : GivesPart K f .expression expression) :
    GivesPart K f .declaration (varDeclaration expression) := by
  refine (gives_expect hf _ _).bind fun n hn => .accept hf ?_ fun _ _ _ => ?_
  · exact (gives_semicolon hf _).bind fun _ _ => .pure (.emptyVar hn)
  · exact h.bind fun v hv => (gives_semicolon hf _).bind fun _ _ => .pure (.varDecl hn hv)

theorem gives_ifStatement (h : GivesPart K f .expression expression)
    (hs : GivesPart K f .statement statement) :
    GivesPart K f .statement (ifStatement expression statement) := by
  refine (gives_expect hf _ _).bind fun _ _ => h.bind fun c hc => ?_
  refine (gives_expect hf _ _).bind fun _ _ => hs.bind fun t ht => .accept hf ?_ fun _ _ _ => ?_
  · exact .pure (.ifOnly hc ht)
  · exact hs.bind fun e he => .pure (.ifElse hc ht he)

theorem gives_whileStatement (h : GivesPart K f .expression expression)
    (hs : GivesPart K f .statement statement) :
    GivesPart K f .statement (whileStatement expression statement) :=
  (gives_expect hf _ _).bind fun _ _ => h.bind fun _ hc => (gives_expect hf _ _).bind fun _ _ =>
    hs.bind fun _ ht => .pure (.whileLoop hc ht)

/-- A clause of a loop, if there is one. -/
def Clause (K : Token → Prop) (part : Part) (clause : Option Tree) : Prop :=
  ∀ t, clause = some t → Shaped K part t

omit hf in
/-- A lowered `for` loop is a statement. -/
theorem shaped_lowerFor {initializer condition increment : Option Tree} {body : Tree}
    (hi : Clause K .declaration initializer) (hc : Clause K .expression condition)
    (hs : Clause K .expression increment) (hb : Shaped K .statement body) :
    Shaped K .statement (lowerFor initializer condition increment body) := by
  have hcondition : Shaped K .expression
      (condition.getD (.literal (.scalar (.bool true)) none)) := by
    cases condition with
    | none => exact .always
    | some c => exact hc c rfl
  have hloop {body : Tree} (hb : Shaped K .statement body) : Shaped K .statement
      (lowerFor initializer condition none body) := by
    cases initializer with
    | none => exact .whileLoop hcondition hb
    | some start =>
      refine .block ?_
      simp only [List.forall_mem_cons]
      exact ⟨hi start rfl, .statement (.whileLoop hcondition hb), nofun⟩
  cases increment with
  | none => exact hloop hb
  | some step =>
    refine hloop (.block ?_)
    simp only [List.forall_mem_cons]
    exact ⟨.statement hb, .statement (.exprStmt (hs step rfl)), nofun⟩

omit hf in
theorem lowerFor_map (initializer condition increment : Option Tree) (body : Tree) :
    lowerFor (initializer.map (Tree.mapTokens f)) (condition.map (Tree.mapTokens f))
      (increment.map (Tree.mapTokens f)) (body.mapTokens f) =
      (lowerFor initializer condition increment body).mapTokens f := by
  cases initializer <;> cases condition <;> cases increment <;> rfl

/-- The rule gives a clause, if there is one. -/
abbrev GivesClause (K : Token → Prop) (f : Token → Token) (part : Part) (x : Parse (Option Tree)) :
    Prop :=
  Gives K f (Option.map (Tree.mapTokens f)) x x (Clause K part)

omit hf in
theorem GivesPart.clause {part : Part} (h : GivesPart K f part x) :
    GivesClause K f part (some <$> x) := by
  refine Gives.map (h.imp fun t ht => ?_) fun _ => rfl
  rintro _ ⟨⟩
  exact ht

theorem gives_forInitializer {varDeclaration exprStatement : Parse Tree}
    (hv : GivesPart K f .declaration varDeclaration) (he : GivesPart K f .statement exprStatement) :
    GivesClause K f .declaration (forInitializer varDeclaration exprStatement) := by
  refine .accept hf (GivesPart.clause (he.imp fun _ => .statement)) fun t _ _ => ?_
  dsimp only
  rw [hf.kind]
  split
  · exact .pure (a := none) nofun
  · exact GivesPart.clause hv

theorem gives_optionalBefore (kind : Token.Kind) (h : GivesPart K f .expression expression) :
    GivesClause K f .expression (optionalBefore kind expression) := by
  refine (gives_check hf _).bind fun b _ => ?_
  cases b with
  | true => exact .pure (a := none) nofun
  | false => exact GivesPart.clause h

/-- A `for` statement gives a statement. -/
theorem gives_forStatement {varDeclaration exprStatement : Parse Tree}
    (hv : GivesPart K f .declaration varDeclaration) (he : GivesPart K f .statement exprStatement)
    (h : GivesPart K f .expression expression) (hs : GivesPart K f .statement statement) :
    GivesPart K f .statement (forStatement varDeclaration exprStatement expression statement) := by
  refine (gives_expect hf _ _).bind fun _ _ => (gives_forInitializer hf hv he).bind fun i hi => ?_
  refine (gives_optionalBefore hf _ h).bind fun c hc => (gives_semicolon hf _).bind fun _ _ => ?_
  refine (gives_optionalBefore hf _ h).bind fun step hstep => ?_
  refine (gives_expect hf _ _).bind fun _ _ => hs.bind fun body hb => ?_
  rw [lowerFor_map]
  exact .pure (shaped_lowerFor hi hc hstep hb)

/-- Items are given one by one. -/
theorem gives_itemsUntil {part : Part} (ends : List Token.Kind) (h : GivesPart K f part x) :
    ∀ (fuel : Nat) {done : List Tree}, (∀ t ∈ done, Shaped K part t) →
      Gives K f (List.map (Tree.mapTokens f)) (itemsUntil ends x fuel done)
        (itemsUntil ends x fuel (done.map (Tree.mapTokens f))) fun ts => ∀ t ∈ ts, Shaped K part t
  | 0, _, hd => .done hd
  | fuel + 1, _, hd => by
    refine gives_peek.bind fun t _ => ?_
    rw [hf.kind]
    split
    · exact .done hd
    · exact h.bind fun t ht => gives_itemsUntil ends h fuel (List.forall_mem_cons.2 ⟨ht, hd⟩)

theorem gives_parameter :
    Gives K f (Tree.mapTokens f) parameter parameter fun t => Holds K [.identifier] t :=
  (gives_expect hf _ _).bind fun _ ht => .pure ht

theorem gives_routine (fuel : Nat) {block : Parse (List Tree)}
    (h : GivesParts K f .declaration block) (kind : Routine) :
    GivesPart K f .method (routine fuel block kind) := by
  refine (gives_expect hf _ _).bind fun n hn => (gives_expect hf _ _).bind fun _ _ => ?_
  refine (gives_listed hf (gives_parameter hf) fuel _).bind fun ps hps => ?_
  refine (gives_expect hf _ _).bind fun _ _ => (gives_expect hf _ _).bind fun _ _ => ?_
  refine h.bind fun body hbody => ?_
  rw [← Tree.mapTokensIn_eq, ← Tree.mapTokensIn_eq]
  exact .pure (.method hn hps hbody)

theorem gives_superclass :
    Gives K f (Tree.mapTokens f) superclass superclass fun t =>
      t = .null ∨ ∃ parent, t = .ident parent none ∧ Holds K [.identifier] parent :=
  .accept hf (.pure (a := Tree.null) (.inl rfl)) fun _ _ _ =>
    (gives_expect hf _ _).bind fun _ hp => .pure (.inr ⟨_, rfl, hp⟩)

/-- A class is a declaration. -/
theorem gives_classDeclaration (fuel : Nat) {method : Parse Tree}
    (h : GivesPart K f .method method) :
    GivesPart K f .declaration (classDeclaration fuel method) := by
  refine (gives_expect hf _ _).bind fun n hn => (gives_superclass hf).bind fun t ht => ?_
  refine (gives_expect hf _ _).bind fun _ _ => ?_
  refine (gives_itemsUntil hf _ h fuel (List.forall_mem_nil _)).bind fun ms hms => ?_
  refine (gives_expect hf _ _).bind fun _ _ => ?_
  rw [← Tree.mapTokensIn_eq]
  refine .pure (a := Tree.classDecl (.token n) t (.list ms)) ?_
  obtain rfl | ⟨parent, rfl, hp⟩ := ht
  · exact .rootClass hn hms
  · exact .subclass hn hp hms

theorem gives_valueRule (form : Tree → Tree)
    (hform : ∀ e, (form e).mapTokens f = form (e.mapTokens f))
    (hs : ∀ e, Shaped K .expression e → Shaped K .statement (form e)) (fuel room : Nat) :
    GivesPart K f .statement (valueRule form fuel room) := by
  cases room with
  | zero => exact gives_tooDeep
  | succ room =>
    refine (gives_expression hf fuel room).bind fun e he => (gives_semicolon hf _).bind fun _ _ => ?_
    rw [← hform]
    exact .pure (hs e he)

theorem gives_exprRule (fuel room : Nat) :
    GivesPart K f .statement (valueRule .exprStmt fuel room) :=
  gives_valueRule hf .exprStmt (fun _ => rfl) (fun _ => .exprStmt) fuel room

theorem gives_returnRule (fuel : Nat) {keyword : Token}
    (hk : Holds K [.kwReturn] (.token keyword)) (room : Nat) :
    Gives K f (Tree.mapTokens f) (returnRule fuel keyword room) (returnRule fuel (f keyword) room)
      (Shaped K .statement) := by
  cases room with
  | zero => exact gives_tooDeep
  | succ room => exact gives_returnStatement hf hk (gives_expression hf fuel room)

theorem gives_varRule (fuel room : Nat) : GivesPart K f .declaration (varRule fuel room) := by
  cases room with
  | zero => exact gives_tooDeep
  | succ room => exact gives_varDeclaration hf (gives_expression hf fuel room)

/-- The rules that call each other, each with less room than the rule that calls it. -/
theorem gives_rules (fuel room : Nat) :
    GivesPart K f .statement (forRule fuel room) ∧ GivesPart K f .statement (ifRule fuel room) ∧
    GivesPart K f .statement (whileRule fuel room) ∧
    GivesParts K f .declaration (blockRule fuel room) ∧
    GivesPart K f .statement (Parser.statement fuel room) ∧
    (∀ kind, GivesPart K f .method (routineRule fuel kind room)) ∧
    GivesPart K f .declaration (classRule fuel room) ∧
    GivesPart K f .declaration (declaration fuel room) := by
  induction room with
  | zero =>
    unfold forRule ifRule whileRule blockRule Parser.statement routineRule classRule declaration
    exact ⟨gives_tooDeep, gives_tooDeep, gives_tooDeep, gives_tooDeep, gives_tooDeep,
      fun _ => gives_tooDeep, gives_tooDeep, gives_tooDeep⟩
  | succ room ih =>
    obtain ⟨hfor, hif, hwhile, hblock, hstatement, hroutine, hclass, hdeclaration⟩ := ih
    refine ⟨?_, ?_, ?_, ?_, ?_, fun kind => ?_, ?_, ?_⟩
    · unfold forRule
      exact gives_forStatement hf (gives_varRule hf fuel room) (gives_exprRule hf fuel room)
        (gives_expression hf fuel room) hstatement
    · unfold ifRule
      exact gives_ifStatement hf (gives_expression hf fuel room) hstatement
    · unfold whileRule
      exact gives_whileStatement hf (gives_expression hf fuel room) hstatement
    · unfold blockRule
      refine (gives_itemsUntil hf _ hdeclaration fuel (List.forall_mem_nil _)).bind fun _ hitems => ?_
      exact (gives_expect hf _ _).bind fun _ _ => .pure hitems
    · unfold Parser.statement
      refine .accept hf (gives_exprRule hf fuel room) fun t ht _ => ?_
      dsimp only
      rw [hf.kind]
      split_ifs with _ _ _ hreturn
      · exact hfor
      · exact hif
      · exact gives_valueRule hf .printStmt (fun _ => rfl) (fun _ => .printStmt) fuel room
      · exact gives_returnRule hf fuel ⟨t, rfl, ht, by simp [hreturn]⟩ room
      · exact hwhile
      · refine hblock.bind fun items hitems => ?_
        rw [← Tree.mapTokensIn_eq]
        exact .pure (.block hitems)
    · unfold routineRule
      exact gives_routine hf fuel hblock kind
    · unfold classRule
      exact gives_classDeclaration hf fuel (hroutine .method)
    · unfold declaration
      refine Gives.rescue (.accept hf (hstatement.imp fun _ => .statement) fun t _ _ => ?_)
        (gives_null hf)
      dsimp only
      rw [hf.kind]
      split_ifs
      · exact hclass
      · exact (hroutine .function).imp fun _ => .funDecl
      · exact gives_varRule hf fuel room

/-- Programs of tokens with `K` and of the changed tokens. -/
theorem both_program {ts : List Token} (hK : ∀ t ∈ ts, K t) :
    let item := recoverDepth (declaration (ts.length + 1) Tree.maxDepth)
    Both K f (List.map (Tree.mapTokens f)) (programFrom item (ts.length + 1) [])
      (programFrom item (ts.length + 1) []) (fun trees => ∀ t ∈ trees, Shaped K .declaration t)
      { ahead := ts } { ahead := ts.map f } := by
  have hgiveUp : GivesPart K f .declaration giveUp :=
    gives_peek.bind fun t _ => (gives_report t _).bind fun _ _ => gives_null hf
  have hitem : GivesPart K f .declaration
      (recoverDepth (declaration (ts.length + 1) Tree.maxDepth)) :=
    Gives.rescue (gives_rules hf (ts.length + 1) Tree.maxDepth).2.2.2.2.2.2.2 hgiveUp
  exact gives_itemsUntil hf _ hitem _ (List.forall_mem_nil _) _ _ ⟨hK, rfl, rfl⟩

end Rules

end Parser

open LoxLang.Parser (Shaped)

/-- Whatever was reported, the statements are of the shape of declarations, and what holds of all
tokens holds of theirs. -/
theorem shaped_parse_of {K : Token → Prop} {tokens : List Token} {parsed : Parsed}
    (hK : ∀ t ∈ tokens, K t) (h : parse? tokens = some parsed) :
    ∀ t ∈ parsed.statements, Shaped K .declaration t := by
  unfold parse? Parser.program at h
  cases Parser.both_program Parser.keepsKinds_id hK with
  | result left _ _ _ holds =>
    simp only [left, Option.some.injEq] at h
    subst h
    exact holds
  | stop left =>
    simp only [left] at h
    cases h

/-- The tokens of the statements are tokens that were parsed. -/
theorem shaped_parse {tokens : List Token} {parsed : Parsed} (h : parse? tokens = some parsed) :
    ∀ t ∈ parsed.statements, Shaped (· ∈ tokens) .declaration t :=
  shaped_parse_of (fun _ ht => ht) h

/-- The programs of changed tokens are the changed programs. -/
theorem parse_map {f : Token → Token} (hf : Parser.KeepsKinds f) {ts : List Token}
    {statements : List Tree} :
    parse? (ts.map f) = some ⟨statements, []⟩ ↔
      ∃ trees, parse? ts = some ⟨trees, []⟩ ∧ statements = trees.map (Tree.mapTokens f) := by
  unfold parse? Parser.program
  rw [List.length_map]
  cases Parser.both_program hf (K := fun _ => True) fun t (_ : t ∈ ts) => trivial with
  | @result trees s s' left right _ inStep _ =>
    have hproblems : s'.problems.toList = [] ↔ s.problems.toList = [] := by
      rw [← List.length_eq_zero_iff, ← List.length_eq_zero_iff, Array.length_toList,
        Array.length_toList, inStep.problems]
    simp only [left, right, Option.some.injEq, Parsed.mk.injEq, hproblems]
    constructor
    · rintro ⟨rfl, hp⟩
      exact ⟨trees, ⟨rfl, hp⟩, rfl⟩
    · rintro ⟨_, ⟨rfl, hp⟩, rfl⟩
      exact ⟨rfl, hp⟩
  | stop left right => simp [left, right]

/-- A property that is kept by the steps that build trees holds of each tree of the right shape, if
it holds of the tokens and of the literals. -/
theorem Parser.Shaped.builds {T : Tree → Prop} (hT : Builds T) {K : Token → Prop}
    (htoken : ∀ a, K a → a.kind ≠ .eof → T (.token a))
    (hliteral : ∀ a, K a → T (.literal (.ofJson a.literal) none))
    {part : Parser.Part} {t : Tree} (h : Shaped K part t) : T t := by
  have holds {kinds : List Token.Kind} {t : Tree} (h : Parser.Holds K kinds t)
      (hkinds : .eof ∉ kinds := by decide) : T t := by
    obtain ⟨a, rfl, ha, hkind⟩ := h
    exact htoken a ha fun heof => hkinds (heof ▸ hkind)
  induction h with
  | @literal a ha =>
    unfold Parser.literalValue
    split
    · exact hT.literal _ rfl
    · exact hT.literal _ rfl
    · exact hT.literal _ rfl
    · exact hliteral a ha
  | always => exact hT.literal _ rfl
  | grouping _ ih | exprStmt _ ih | printStmt _ ih => exact hT.one rfl rfl ih
  | unary hop _ ih | returnStmt hop _ ih => exact hT.two rfl rfl (holds hop) ih
  | binary _ hop _ ihl ihr | logical _ hop _ ihl ihr => exact hT.three rfl rfl ihl (holds hop) ihr
  | ident hn | thisRef hn => exact hT.one rfl rfl (holds hn)
  | assign hn _ ih | varDecl hn _ ih => exact hT.two rfl rfl (holds hn) ih
  | call _ hp _ ihc iha => exact hT.three rfl rfl ihc (holds hp) (hT.list _ iha)
  | getField _ hn ih => exact hT.two rfl rfl ih (holds hn)
  | setField _ hn _ iho ihv => exact hT.three rfl rfl iho (holds hn) ihv
  | superRef hk hm => exact hT.two rfl rfl (holds hk) (holds hm)
  | block _ ih => exact hT.one rfl rfl (hT.list _ ih)
  | ifOnly _ _ ihc iht => exact hT.three rfl rfl ihc iht hT.null
  | ifElse _ _ _ ihc iht ihe => exact hT.three rfl rfl ihc iht ihe
  | whileLoop _ _ ihc iht => exact hT.two rfl rfl ihc iht
  | emptyReturn hk => exact hT.two rfl rfl (holds hk) hT.null
  | null => exact hT.null
  | statement _ ih | funDecl _ ih => exact ih
  | emptyVar hn => exact hT.two rfl rfl (holds hn) hT.null
  | method hn hps _ ih =>
    exact hT.three rfl rfl (holds hn) (hT.list _ fun t ht => holds (hps t ht)) (hT.list _ ih)
  | rootClass hn _ ih => exact hT.three rfl rfl (holds hn) hT.null (hT.list _ ih)
  | subclass hn hp _ ih =>
    exact hT.three rfl rfl (holds hn) (hT.one rfl rfl (holds hp)) (hT.list _ ih)

/-- What is kept by the steps and holds of the tokens of a source holds of its program. -/
theorem builds_parse {T : Tree → Prop} (hT : Builds T) {source : String} {statements : List Tree}
    (hp : parse? (scan source).finish = some ⟨statements, []⟩)
    (htokens : ∀ t ∈ (scan source).tokens, T (.token t)) : ∀ t ∈ statements, T t := by
  refine fun t ht => (shaped_parse hp t ht).builds hT (fun a ha hkind => htokens a ?_)
    fun a ha => hT.ofToken (scan_plain source a ha)
  have hmem : a ∈ (scan source).tokens.toList ++ [.ofText .eof "" .nil (scan source).line] := by
    simpa [Scan.finish] using ha
  rcases List.mem_append.1 hmem with hmem | hmem
  · exact Array.mem_toList_iff.1 hmem
  · cases List.mem_singleton.1 hmem
    exact absurd rfl hkind

/-- The tokens of a program are tokens of its source. -/
theorem mem_tokens_of_parse {source : String} {statements : List Tree}
    (hp : parse? (scan source).finish = some ⟨statements, []⟩) :
    ∀ t ∈ statements, ∀ a ∈ t.tokens, a ∈ (scan source).tokens := by
  refine builds_parse (T := fun t => ∀ a ∈ t.tokens, a ∈ (scan source).tokens) ?_ hp ?_
  · refine ⟨nofun, nofun, fun items h a ha => ?_, fun t ht h a ha => ?_⟩
    · rw [Tree.tokens, Tree.tokensIn_eq] at ha
      obtain ⟨t, ht, ha⟩ := List.mem_flatMap.1 ha
      exact h t ht a ha
    · rw [Tree.tokens_eq_children (by cases t <;> first | rfl | cases ht)] at ha
      obtain ⟨u, hu, ha⟩ := List.mem_flatMap.1 ha
      exact h u hu a ha
  · intro t ht a ha
    cases List.mem_singleton.1 ha
    exact ht

end LoxLang
