import LoxLang.Proofs.TwinRuns

/-!
# Sessions that are alike

What can be seen of a session is what it has printed, its messages and flags, and its globals by
name, kind and text (`Session.shown`). Sessions whose machines are alike show the same, but for the
lines of their messages, and the same if no line may change (`SessionLike.shown_eq`). Alike programs
correspond to each other (`Change.alike`), so that executing them leads from alike sessions to alike
ones (`runsAlike_execute`), and a program is
executed as its parts are, one after the other (`execute_append`).
-/

namespace LoxLang

variable {source : String}

/-! ## Alike programs -/

section Forms

variable {ρ : Change} {π : Setting} {t t' : Tree}

/-- The trees are alike, in a setting that keeps all numbers. -/
def Change.Alike (ρ : Change) (role : Role) (π : Setting) (t t' : Tree) : Prop :=
  π.number = id ∧ TreeLike ρ role π.marks t t'

theorem Change.Alike.isNull_eq {role : Role} (h : ρ.Alike role π t t') : t'.isNull = t.isNull := by
  obtain ⟨-, h⟩ := h
  cases h <;> rfl

/-- Like expressions have the same form. -/
theorem Change.Alike.expressionForm (h : ρ.Alike .expression π t t') :
    ExpressionForm ρ ρ.Alike π t t' := by
  obtain ⟨hπ, h⟩ := h
  have hdepth (depth : Option Nat) : depth = depth.map π.number := by
    rw [hπ]
    exact (congrFun Option.map_id depth).symm
  cases h with
  | literal => exact .literal
  | grouping he => exact .grouping ⟨hπ, he⟩
  | unary ho he => exact .unary (.inl ho) ⟨hπ, he⟩
  | binary hl ho hr => exact .binary ⟨hπ, hl⟩ (.inl ho) ⟨hπ, hr⟩
  | logical hl ho hr => exact .logical ⟨hπ, hl⟩ (.inl ho) ⟨hπ, hr⟩
  | ident hn => exact .ident (hdepth _) (.inl hn)
  | assign hn he => exact .assign (hdepth _) (.inl hn) ⟨hπ, he⟩
  | call hf hp ha => exact .call ⟨hπ, hf⟩ (.inl hp) ⟨hπ, ha⟩
  | getField ho hn => exact .getField ⟨hπ, ho⟩ (.inl hn)
  | setField ho hn he => exact .setField ⟨hπ, ho⟩ (.inl hn) ⟨hπ, he⟩
  | thisRef hn => exact .thisRef (hdepth _) (.inl hn)
  | superRef _ hm =>
    refine .superRef (hdepth _) (fun d _ => ?_) (.inl hm)
    rw [hπ]
    rfl

/-- Like statements have the same form. -/
theorem Change.Alike.statementForm (h : ρ.Alike .statement π t t') :
    StatementForm ρ ρ.Alike π t t' := by
  obtain ⟨hπ, h⟩ := h
  have h0 : π.number 0 = 0 := congrFun hπ 0
  have hinside (marked : Bool) : (π.inside marked).number = id := by simp [Setting.inside, hπ]
  have hnull {role : Role} : Optional ρ.Alike π role .null .null := ⟨rfl, fun h => by cases h⟩
  have hpart {role : Role} {t t' : Tree} (h : TreeLike ρ role π.marks t t') :
      Optional ρ.Alike π role t t' := ⟨Change.Alike.isNull_eq ⟨hπ, h⟩, fun _ => ⟨hπ, h⟩⟩
  have hmembers {parent t t' : Tree}
      (h : TreeLike ρ .members (marksAroundMethods π.marks parent) t t') :
      ρ.Alike .members (π.aroundMethods parent) t t' :=
    ⟨Setting.number_aroundMethods hπ parent, π.marks_aroundMethods parent ▸ h⟩
  cases h with
  | exprStmt he => exact .exprStmt ⟨hπ, he⟩
  | printStmt he => exact .printStmt ⟨hπ, he⟩
  | emptyVar hn => exact .varDecl h0 (.inl hn) hnull
  | varDecl hn he => exact .varDecl h0 (.inl hn) (hpart he)
  | @block _ marked _ _ hitems =>
    have hbody : ρ.Alike .body (π.inside marked) _ _ := ⟨hinside marked, hitems⟩
    exact .block hbody
  | ifOnly hc ht => exact .ifElse ⟨hπ, hc⟩ ⟨hπ, ht⟩ hnull
  | ifElse hc ht he => exact .ifElse ⟨hπ, hc⟩ ⟨hπ, ht⟩ (hpart he)
  | whileLoop hc ht => exact .whileLoop ⟨hπ, hc⟩ ⟨hπ, ht⟩
  | funDecl hn hd =>
    cases hd with
    | method hs hparams hbody =>
      exact .funDecl h0 (.inl hs) (.inl hn) ⟨hπ, .method hs hparams hbody⟩
  | emptyReturn => exact .returnStmt hnull
  | returnStmt _ he => exact .returnStmt (hpart he)
  | rootClass hs hn hm => exact .classDecl h0 (.inl hs) (.inl hn) hnull (.error _) (hmembers hm)
  | subclass hs hn hp hm =>
    cases hp with
    | ident hp =>
      exact .classDecl h0 (.inl hs) (.inl hn) (hpart (.ident hp)) (.ok ⟨_, .inl hp⟩) (hmembers hm)

theorem Change.Alike.methodForm (h : ρ.Alike .method π t t') : MethodForm ρ ρ.Alike π t t' := by
  obtain ⟨hπ, h⟩ := h
  cases h with
  | @method _ marked _ _ _ _ _ _ hs hparams hbody =>
    obtain ⟨a, a', rfl, rfl, -, hl, -⟩ := hs
    refine ⟨.ok hl, .ok ⟨congrFun hπ 0, marked, hparams.imp fun _ _ hn => .inl hn, ?_, hbody⟩⟩
    simp [Setting.inside, hπ]

theorem TreeLike.items {role item : Role} {β : List Bool} (h : TreeLike ρ role β t t')
    (hr : role.item? = some item) :
    ∃ ts ts', t = .list ts ∧ t' = .list ts' ∧ List.Forall₂ (TreeLike ρ item β) ts ts' := by
  cases h with
  | body length items | arguments length items | members length items =>
    cases hr
    exact ⟨_, _, rfl, rfl, List.forall₂_iff_zip.2 ⟨length, items⟩⟩
  | _ => cases hr

/-- Alike programs correspond to each other. -/
def Change.alike (ρ : Change) : Correspondence where
  change := ρ
  Like := ρ.Alike
  isNull_eq h := h.isNull_eq
  expression h := h.expressionForm
  statement h := h.statementForm
  method h := h.methodForm
  items hr h := by
    obtain ⟨hπ, h⟩ := h
    obtain ⟨ts, ts', rfl, rfl, hts⟩ := h.items hr
    exact .ok (hts.imp fun _ _ ht => ⟨hπ, ht⟩)
  traced := False
  faithful h := h.elim
  ordered := False

end Forms

/-! ## What can be seen -/

/-- What can be seen of a session. -/
structure Shown where
  output : List String
  messages : List String
  hadError : Bool
  hadRuntimeError : Bool
  /-- Each global by its name, its kind and its text. -/
  globals : Except Fault (List (Name × String × Except Fault String))

/-- What a session has shown. -/
def Session.shown (s : Session) : Shown where
  output := s.machine.output.toList
  messages := s.reporter.messages
  hadError := s.reporter.hadError
  hadRuntimeError := s.reporter.hadRuntimeError
  globals := s.globals.map fun bindings =>
    bindings.map fun (name, value) => (name, value.typeName, s.machine.store.text value)

/-- The diagnostic with another line, if it is of an error. -/
def Diagnostic.atLine (read : Json → Json) : Diagnostic → Diagnostic
  | .runtime e => .runtime ⟨e.cause, read e.line⟩
  | d => d

/-- What can be seen of a session whose errors are at the lines that `read` gives. -/
def Session.shownAt (read : Json → Json) (s : Session) : Shown :=
  { s.shown with messages := s.reporter.log.toList.map fun d => (d.atLine read).text }

theorem Session.shownAt_id (s : Session) : s.shownAt id = s.shown := by
  have hsame (d : Diagnostic) : d.atLine id = d := by
    cases d <;> rfl
  simp only [shownAt, hsame]
  rfl

/-! ## Alike sessions -/

/-- The same message, if it is of an error then maybe at another line. -/
def DiagnosticLike (ρ : Change) : Diagnostic → Diagnostic → Prop
  | .runtime e, .runtime e' => e'.cause = e.cause ∧ ρ.line e.line e'.line
  | d, d' => d' = d

/-- Two reporters with the same messages, up to the change. -/
structure ReporterLike (ρ : Change) (r r' : Reporter) : Prop where
  hadError : r'.hadError = r.hadError
  hadRuntimeError : r'.hadRuntimeError = r.hadRuntimeError
  log : List.Forall₂ (DiagnosticLike ρ) r.log.toList r'.log.toList
  written : List.Forall₂ (DiagnosticLike ρ) r.written.toList r'.written.toList

/-- The machines differ at most in what twins may differ in, and in their traces. -/
def MachineLike (ρ : Change) (m m' : Machine) : Prop :=
  ∃ p : Twins ρ.alike, p.left = m ∧ p.right = m' ∧ p.Paired

/-- Two sessions that are alike, up to the change. -/
structure SessionLike (ρ : Change) (s s' : Session) : Prop where
  machine : MachineLike ρ s.machine s'.machine
  reporter : ReporterLike ρ s.reporter s'.reporter

/-- Both steps end or both are given up for the same reason, and the sessions are alike then. -/
def RunsAlike (ρ : Change) (x x' : Step Unit) (s s' : Session) : Prop :=
  match x s, x' s' with
  | .ok _ s₁, .ok _ s₁' => SessionLike ρ s₁ s₁'
  | .error e s₁, .error e' s₁' => e' = e ∧ SessionLike ρ s₁ s₁'
  | _, _ => False

variable {ts' : List Tree} {x x' : Step Unit} {s : Session}

section Alike

variable {ρ : Change} {m m' m₁ m₁' : Machine} {s s' : Session} {r r' : Reporter} {ts : List Tree}

theorem DiagnosticLike.isStatic_eq {d d' : Diagnostic} (h : DiagnosticLike ρ d d') :
    d'.isStatic = d.isStatic := by
  cases d with
  | static => rw [show d' = _ from h]
  | runtime e =>
    cases d' with
    | static => cases h
    | runtime e' => rfl

/-- Like diagnostics are reported alike. -/
theorem ReporterLike.report (h : ReporterLike ρ r r') {d d' : Diagnostic}
    (hd : DiagnosticLike ρ d d') : ReporterLike ρ (r.report d) (r'.report d') where
  hadError := by simp only [Reporter.report, h.hadError, hd.isStatic_eq]
  hadRuntimeError := by simp only [Reporter.report, h.hadRuntimeError, hd.isStatic_eq]
  log := by
    simp only [Reporter.report, Array.toList_push]
    exact List.rel_append h.log (.cons hd .nil)
  written := by
    simp only [Reporter.report, Array.toList_push]
    exact List.rel_append h.written (.cons hd .nil)

theorem DiagnosticLike.refl (hline : ∀ a, ρ.line a a) (d : Diagnostic) : DiagnosticLike ρ d d := by
  cases d with
  | static => rfl
  | runtime e => exact ⟨rfl, hline e.line⟩

theorem ReporterLike.refl (r : Reporter) (hline : ∀ a, ρ.line a a) : ReporterLike ρ r r :=
  ⟨rfl, rfl, List.forall₂_same.2 fun d _ => .refl hline d,
    List.forall₂_same.2 fun d _ => .refl hline d⟩

/-- A trace is not looked at. -/
theorem MachineLike.traced (h : MachineLike ρ m m') (ht : Traced m m₁) (ht' : Traced m' m₁') :
    MachineLike ρ m₁ m₁' := by
  obtain ⟨p, rfl, rfl, hp⟩ := h
  obtain ⟨trace, hb, rfl⟩ := ht
  obtain ⟨trace', hb', rfl⟩ := ht'
  refine ⟨p.shows p.left.output p.left.clock trace trace', rfl, ?_, hp.shows _ _ ?_ False.elim⟩
  · rw [← hp.output, ← hp.clock]
    rfl
  · rw [hb, hb', hp.blocked]

theorem traced_note (m : Machine) (line : String) : Traced m (m.note 1 line) := by
  unfold Machine.note
  split
  · exact ⟨m.trace.write line, rfl, rfl⟩
  · exact .refl m

theorem Session.note_eq (s : Session) (line : String) :
    note line s = if s.machine.trace.blocked && 1 ≤ s.machine.detail then .error .blockedTrace s
      else .ok () ⟨s.machine.note 1 line, s.reporter⟩ := by
  unfold note
  rw [bind_of_ok (show (get : Step Session) s = .ok s s from rfl)]
  dsimp only
  split <;> rfl

/-- An error is traced and reported by both sessions. -/
theorem runsAlike_fail (h : SessionLike ρ s s') {e e' : RuntimeError}
    (he : e'.cause = e.cause ∧ ρ.line e.line e'.line) :
    RunsAlike ρ (Session.fail e) (Session.fail e') s s' := by
  have hnote (s : Session) (e : RuntimeError) : Session.fail e s =
      if s.machine.trace.blocked && 1 ≤ s.machine.detail then .error .blockedTrace s
      else .ok () ⟨s.machine.note 1 ("runtime error: " ++ e.cause.text),
        s.reporter.report (.runtime e)⟩ := by
    unfold Session.fail
    by_cases hb : (s.machine.trace.blocked && decide (1 ≤ s.machine.detail)) = true
    · rw [if_pos hb, bind_of_error (by rw [Session.note_eq, if_pos hb])]
    · rw [if_neg hb, bind_of_ok (by rw [Session.note_eq, if_neg hb])]
      rfl
  obtain ⟨p, hleft, hright, hp⟩ := h.machine
  unfold RunsAlike
  rw [hnote, hnote, ← hleft, ← hright, hp.blocked, hp.detail, hleft]
  by_cases hb : (s.machine.trace.blocked && decide (1 ≤ s.machine.detail)) = true
  · rw [if_pos hb, if_pos hb]
    exact ⟨rfl, h⟩
  · rw [if_neg hb, if_neg hb]
    exact ⟨h.machine.traced (traced_note _ _) (hright ▸ traced_note _ _), h.reporter.report he⟩

/-! ## Execution -/

/-- Statements of alike programs. The first line of a statement is cited where it is too deep. -/
def StatementLike (ρ : Change) (t t' : Tree) : Prop :=
  TreeLike ρ .statement [false] t t' ∧ ρ.line t.firstLine t'.firstLine

/-- Alike programs are executed alike from the globals of alike sessions. -/
theorem runsAlike_execute (hts : List.Forall₂ (StatementLike ρ) ts ts') :
    ∀ {s s' : Session}, SessionLike ρ s s' → s.machine.current = s.machine.globals →
      s'.machine.current = s'.machine.globals →
      RunsAlike ρ (Session.execute ts) (Session.execute ts') s s' := by
  induction hts with
  | nil => exact fun h _ _ => h
  | @cons t t' ts ts' ht _ ih =>
    intro s s' h hcur hcur'
    obtain ⟨p, hleft, hright, hp⟩ := h.machine
    obtain ⟨hnull, hnull'⟩ := TreeLike.isNull_eq (.inl ht.1)
    have hhere : p.Here ⟨id, [false]⟩ := by
      have hcurrent : p.left.current = p.left.globals := hleft ▸ hcur
      have hcurrent' : p.right.current = p.left.globals :=
        (hright ▸ hcur' : p.right.current = p.right.globals).trans hp.globals
      unfold Twins.Here
      rw [hcurrent, hcurrent']
      refine hp.reaches_old hp.globals_lt rfl fun d => ?_
      cases d <;> rfl
    have hwalk := (Twins.inStep_walks ρ.alike Session.maxRounds Tree.maxDepth).2.1 hp hhere
      ⟨rfl, ht.1⟩
    have hback := (Exec.returns_walks Session.maxRounds Tree.maxDepth).2.1
    unfold RunsAlike Session.execute
    simp only [hnull, hnull', Bool.false_eq_true, if_false]
    cases hwalk with
    | @result q c c' left right grows paired holds =>
      rw [hleft] at left
      rw [hright] at right
      have hb := (hback t s.machine).ok left
      have hb' := (hback t' s'.machine).ok right
      rw [bind_of_ok (Session.onMachine_of_ok left), bind_of_ok (Session.onMachine_of_ok right)]
      exact ih ⟨⟨q, rfl, rfl, paired⟩, h.reporter⟩
        (hb.current.trans (hcur.trans hb.globals.symm))
        (hb'.current.trans (hcur'.trans hb'.globals.symm))
    | @stop q e e' left right he grows paired =>
      rw [hleft] at left
      rw [hright] at right
      have h₁ : SessionLike ρ ⟨q.left, s.reporter⟩ ⟨q.right, s'.reporter⟩ :=
        ⟨⟨q, rfl, rfl, paired⟩, h.reporter⟩
      rw [bind_of_ok (Session.onMachine_of_error left),
        bind_of_ok (Session.onMachine_of_error right)]
      cases e with
      | runtime error =>
        cases e' with
        | runtime error' => exact runsAlike_fail h₁ he
        | _ => exact he.elim
      | overflow =>
        cases e' with
        | overflow => exact runsAlike_fail h₁ ⟨rfl, ht.2⟩
        | _ => exact he.elim
      | fault f =>
        cases e' with
        | fault f' =>
          cases he
          exact ⟨rfl, h₁⟩
        | _ => exact he.elim
      | unfinished =>
        cases e' with
        | unfinished => exact ⟨rfl, h₁⟩
        | _ => exact he.elim

/-- The statements of a program, one by one. -/
theorem execute_cons (t : Tree) (ts : List Tree) :
    Session.execute (t :: ts) =
      if t.isNull then Session.execute ts
      else Session.onMachine t >>= fun
        | .ok _ => Session.execute ts
        | .error (.runtime error) => Session.fail error
        | .error .overflow => Session.fail ⟨.stackOverflow, t.firstLine⟩
        | .error (.fault fault) => throw (.fault fault)
        | .error .unfinished => throw .unfinished := rfl

/-- A program that has ended without an error has executed its first statement, and then the
rest. -/
theorem execute_cons_ok {t : Tree} {s₁ : Session} (hx : Session.execute (t :: ts) s = .ok () s₁)
    (he : s₁.reporter.hadRuntimeError = false) :
    ∃ m, Session.execute ts ⟨m, s.reporter⟩ = .ok () s₁ ∧
      ∀ us, Session.execute (t :: us) s = Session.execute us ⟨m, s.reporter⟩ := by
  rw [execute_cons] at hx
  by_cases hn : t.isNull = true
  · rw [if_pos hn] at hx
    exact ⟨s.machine, hx, fun us => by rw [execute_cons, if_pos hn]⟩
  · rw [if_neg hn] at hx
    obtain ⟨result, s₂, hrun, hx⟩ := bind_eq_ok.1 hx
    have hfail {error : RuntimeError} (hf : Session.fail error s₂ = .ok () s₁) : False := by
      unfold Session.fail at hf
      obtain ⟨-, s₃, -, hf⟩ := bind_eq_ok.1 hf
      cases hf
      simp [Reporter.reportAll, Reporter.report, Diagnostic.isStatic] at he
    cases result with
    | ok c =>
      have hreporter : s₂.reporter = s.reporter := by
        unfold Session.onMachine at hrun
        split at hrun <;> cases hrun
        rfl
      refine ⟨s₂.machine, hreporter ▸ hx, fun us => ?_⟩
      rw [execute_cons, if_neg hn, bind_of_ok hrun, ← hreporter]
    | error stop =>
      cases stop with
      | runtime | overflow => exact (hfail hx).elim
      | fault | unfinished => cases hx

/-- Where a part of a program has ended without an error, the rest is executed after it. -/
theorem execute_append {us : List Tree} {s s₁ : Session} (hx : Session.execute ts s = .ok () s₁)
    (he : s₁.reporter.hadRuntimeError = false) :
    s₁.reporter = s.reporter ∧ Session.execute (ts ++ us) s = Session.execute us s₁ := by
  induction ts generalizing s with
  | nil =>
    cases hx
    exact ⟨rfl, rfl⟩
  | cons t ts ih =>
    obtain ⟨m, hrest, hcons⟩ := execute_cons_ok hx he
    rw [List.cons_append, hcons]
    exact ih hrest

theorem executeUnlessError_eq (ts : List Tree) (s : Session) :
    Session.executeUnlessError ts s =
      if s.reporter.hadError then .ok () s else Session.execute ts s := by
  unfold Session.executeUnlessError
  rw [bind_of_ok (show (get : Step Session) s = .ok s s from rfl)]
  split <;> rfl

/-- Alike programs run alike, or do not run in both sessions. -/
theorem runsAlike_executeUnlessError
    (hts : s.reporter.hadError = false → List.Forall₂ (StatementLike ρ) ts ts')
    (h : SessionLike ρ s s') (hcur : s.machine.current = s.machine.globals)
    (hcur' : s'.machine.current = s'.machine.globals) :
    RunsAlike ρ (Session.executeUnlessError ts) (Session.executeUnlessError ts') s s' := by
  unfold RunsAlike
  rw [executeUnlessError_eq, executeUnlessError_eq, h.reporter.hadError]
  by_cases he : s.reporter.hadError = true
  · rw [if_pos he, if_pos he]
    exact h
  · rw [if_neg he, if_neg he]
    exact runsAlike_execute (hts (by simpa using he)) h hcur hcur'

/-! ## What alike sessions show -/

namespace SessionLike

theorem output_eq (h : SessionLike ρ s s') : s'.machine.output = s.machine.output := by
  obtain ⟨p, hleft, hright, hp⟩ := h.machine
  rw [← hleft, ← hright]
  exact hp.output

/-- The globals are never marked, so that alike sessions have the same ones. -/
theorem globals_eq (h : SessionLike ρ s s') : s'.shown.globals = s.shown.globals := by
  obtain ⟨p, hleft, hright, hp⟩ := h.machine
  have hb : (s'.machine.store.scope s'.machine.globals).bindings =
      (s.machine.store.scope s.machine.globals).bindings := by
    rw [← hleft, ← hright, hp.globals, hp.scope_old hp.globals_lt]
  have hg : s'.globals = s.globals := by
    unfold Session.globals
    simp only [hb]
  have htext (v : Value) : s'.machine.store.text v = s.machine.store.text v := by
    rw [← hleft, ← hright]
    exact hp.text_eq v
  show s'.globals.map _ = s.globals.map _
  rw [hg]
  simp only [htext]

/-- The lines of the first session are given by those of the second one. -/
theorem shown_eq_shownAt {read : Json → Json} (h : SessionLike ρ s s')
    (hline : ∀ a b, ρ.line a b → a = read b) : s.shown = s'.shownAt read := by
  have hlog : ∀ {ds ds' : List Diagnostic}, List.Forall₂ (DiagnosticLike ρ) ds ds' →
      ds = ds'.map (Diagnostic.atLine read) := by
    intro ds ds' hds
    induction hds with
    | nil => rfl
    | @cons d d' _ _ hd _ ih =>
      rw [ih, List.map_cons]
      congr 1
      cases d with
      | static =>
        rw [show d' = _ from hd]
        rfl
      | runtime e =>
        cases d' with
        | static => cases hd
        | runtime e' => rw [Diagnostic.atLine, ← hline _ _ hd.2, hd.1]
  unfold Session.shownAt Session.shown
  congr 1
  · rw [h.output_eq]
  · unfold Reporter.messages
    rw [hlog h.reporter.log, List.map_map]
    rfl
  · exact h.reporter.hadError.symm
  · exact h.reporter.hadRuntimeError.symm
  · exact h.globals_eq.symm

theorem shown_eq (h : SessionLike ρ s s') (hline : ∀ a b, ρ.line a b → b = a) :
    s'.shown = s.shown := by
  have hid : s.shown = s'.shownAt id := h.shown_eq_shownAt fun a b hab => (hline a b hab).symm
  rw [hid, Session.shownAt_id]

end SessionLike

/-- Both steps end, or both are given up for the same reason, and the sessions show the same
then. -/
def ShowSame (x x' : Step Unit) (s s' : Session) : Prop :=
  match x s, x' s' with
  | .ok _ s₁, .ok _ s₁' => s₁'.shown = s₁.shown
  | .error e s₁, .error e' s₁' => e' = e ∧ s₁'.shown = s₁.shown
  | _, _ => False

theorem RunsAlike.showSame (h : RunsAlike ρ x x' s s') (hline : ∀ a b, ρ.line a b → b = a) :
    ShowSame x x' s s' := by
  unfold RunsAlike at h
  unfold ShowSame
  split at h
  · exact h.shown_eq hline
  · exact ⟨h.1, h.2.shown_eq hline⟩
  · exact h.elim

/-- Both steps end, or both are given up for the same reason, and the first session then shows what
the second one does, with the lines that `read` gives. -/
def ShowsAt (read : Json → Json) (x x' : Step Unit) (s s' : Session) : Prop :=
  match x s, x' s' with
  | .ok _ s₁, .ok _ s₁' => s₁.shown = s₁'.shownAt read
  | .error e s₁, .error e' s₁' => e' = e ∧ s₁.shown = s₁'.shownAt read
  | _, _ => False

theorem RunsAlike.showsAt {read : Json → Json} (h : RunsAlike ρ x x' s s')
    (hline : ∀ a b, ρ.line a b → a = read b) : ShowsAt read x x' s s' := by
  unfold RunsAlike at h
  unfold ShowsAt
  split at h
  · exact h.shown_eq_shownAt hline
  · exact ⟨h.1, h.2.shown_eq_shownAt hline⟩
  · exact h.elim

/-! ## New sessions -/

theorem Traced.current_eq {detail : Nat} {clock : Clock} (h : Traced (.initial detail clock) m) :
    m.current = m.globals := by
  obtain ⟨_, -, rfl⟩ := h
  rfl

/-- A new machine is like itself: it has no function. -/
theorem machineLike_initial (ρ : Change) (detail : Nat) (clock : Clock) :
    MachineLike ρ (.initial detail clock) (.initial detail clock) := by
  refine ⟨.same (.initial detail clock), rfl, rfl,
    Twins.paired_same (closed_initial detail clock) False.elim ?_⟩
  intro r b hr
  have hnone : (Machine.initial detail clock).store.function? r = none := Array.getElem?_empty
  rw [hnone] at hr
  cases hr

end Alike

/-! ## Programs -/

theorem wellFormed_of_fine {trees : List Tree}
    (h : Everywhere Resolver.Fine ⟨.body, []⟩ (.list trees)) :
    ∀ t ∈ trees, WellFormed .statement t := by
  have hbody : WellFormed .body (.list trees) :=
    (h.imp (Q := fun c u => Formed c.role u) fun _ _ hf => hf.formed).reframe
  exact hbody.items fun _ => rfl

theorem wellFormed_of_parse {statements : List Tree}
    (hp : parse? (scan source).finish = some ⟨statements, []⟩) :
    ∀ t ∈ statements, WellFormed .statement t := by
  obtain ⟨parsed, hp', -, hform⟩ := parse_scan source
  obtain rfl := Option.some.inj (hp'.symm.trans hp)
  exact hform rfl

theorem parse_eq (h : ((parse? (scan source).finish).getD {}).problems = []) :
    parse? (scan source).finish =
      some ⟨((parse? (scan source).finish).getD {}).statements, []⟩ := by
  obtain ⟨parsed, hp, -, -⟩ := parse_scan source
  rw [hp] at h ⊢
  rw [← h]
  rfl

/-- A program that was parsed is then resolved, and executed unless an error was reported. -/
theorem Session.run_eq (hblocked : s.machine.trace.blocked = false)
    (hs : s.reporter.hadError = false) {statements : List Tree}
    (hscan : (scan source).problems = #[])
    (hp : parse? (scan source).finish = some ⟨statements, []⟩) :
    ∃ m, Traced s.machine m ∧
      run source s = (resolveNames statements >>= executeUnlessError) ⟨m, s.reporter⟩ := by
  obtain ⟨m, hm, ht⟩ := read_ok hblocked hp
  refine ⟨m, ht, ?_⟩
  unfold run
  rw [hscan] at hm
  change read source s = .ok statements ⟨m, s.reporter⟩ at hm
  rw [bind_of_ok hm]
  rw [bind_of_ok (show (get : Step Session) ⟨m, s.reporter⟩ = .ok ⟨m, s.reporter⟩ _ from rfl), hs]
  rfl

theorem Session.resolve_execute_eq (hblocked : s.machine.trace.blocked = false)
    {ts trees : List Tree} (ht : (resolve ts).statements = .ok trees) :
    ∃ m, Traced s.machine m ∧ (resolveNames ts >>= executeUnlessError) s =
      executeUnlessError trees ⟨m, s.reporter.reportAll (resolve ts).problems⟩ := by
  obtain ⟨m, hm, hq⟩ := resolveNames_ok hblocked ht
  exact ⟨m, hq, bind_of_ok hm⟩

end LoxLang
