import LoxLang.Proofs.Grammar.Omissions
import LoxLang.Proofs.Safety
import LoxLang.Proofs.Settlement
import LoxLang.Session

/-!
# Sessions

A session runs programs one after another, and its reporter may be reset in between (`Act`). The
observed session is the session with the record of the observed machine, and with a list of the
programs that it has executed (`Observation`). Positions lead into these programs, so that a
function of an earlier program keeps its home when a later one calls it.

`InOrder` is what every act keeps: the machine is sound and back in its globals, and every program
was accepted. What follows is that a run of any source comes to its end (`run_never_faults`).
-/

namespace LoxLang

/-! ## Observed sessions -/

/-- A program that was executed: as it was parsed, and as it was resolved. -/
structure Program where
  parsed : List Tree
  resolved : List Tree

/-- A session with a record of what its machine has done. -/
structure Observation where
  session : Session
  origins : Array (Option Site)
  subjects : Array (Option Subject)
  homes : Array Home
  visits : Array Visit
  /-- The programs that were executed, in order. -/
  programs : List Program

namespace Observation

/-- The machine of an observed session, with its record. -/
def watched (o : Observation) : Watched :=
  ⟨o.session.machine, o.origins, o.subjects, o.homes, o.visits⟩

/-- The session with another machine and record. -/
def withWatched (o : Observation) (w : Watched) : Observation :=
  { o with
    session := { o.session with machine := w.machine }
    origins := w.origins
    subjects := w.subjects
    homes := w.homes
    visits := w.visits }

/-- The trees that positions lead into. -/
def roots (o : Observation) : List Tree :=
  o.programs.map fun program => .list program.resolved

/-- A new session. -/
def start (detail : Nat) (clock : Clock) : Observation where
  session := .start detail clock
  origins := #[none]
  subjects := #[none]
  homes := #[]
  visits := #[]
  programs := []

end Observation

/-- A session under observation. -/
abbrev Observe := EStateM Abort Observation

variable {α β : Type}

namespace Observe

/-- A step of the session that executes nothing. -/
def plain {α : Type} (step : Step α) : Observe α := fun o =>
  match step o.session with
  | .ok a session => .ok a { o with session }
  | .error e session => .error e { o with session }

/-- Execute one statement of a program on the observed machine. -/
def onMachine (p : Position) (t : Tree) : Observe (Except Stop Completion) := fun o =>
  match Watch.execute Session.maxRounds Tree.maxDepth p [] t o.watched with
  | .ok completion w => .ok (.ok completion) (o.withWatched w)
  | .error stop w => .ok (.error stop) (o.withWatched w)

/-- Execute the statements of a program from the given one on. -/
def execute (program : Nat) : Nat → List Tree → Observe Unit
  | _, [] => return ()
  | i, t :: ts =>
    if t.isNull then execute program (i + 1) ts
    else do
      match ← onMachine ⟨program, [i]⟩ t with
      | .ok _ => execute program (i + 1) ts
      | .error (.runtime error) => plain (Session.fail error)
      | .error .overflow => plain (Session.fail ⟨.stackOverflow, t.firstLine⟩)
      | .error (.fault fault) => throw (.fault fault)
      | .error .unfinished => throw .unfinished

/-- Run a program, unless an error has been reported. -/
def executeUnlessError (program : Program) : Observe Unit := do
  if (← plain get).reporter.hadError then return ()
  else do
    let count := (← get).programs.length
    modify fun o => { o with programs := o.programs ++ [program] }
    execute count 0 program.resolved

/-- Run a program. -/
def run (source : String) : Observe Unit := do
  let parsed ← plain (Session.read source)
  if (← plain get).reporter.hadError then return ()
  else do
    let resolved ← plain (Session.resolveNames parsed)
    executeUnlessError ⟨parsed, resolved⟩

/-! ## Erasure -/

theorem erases_plain (step : Step α) : Erases Observation.session (plain step) step := by
  intro o
  unfold plain
  cases step o.session <;> rfl

theorem erases_onMachine (p : Position) (t : Tree) :
    Erases Observation.session (onMachine p t) (Session.onMachine t) := by
  intro o
  have h : seen Watched.machine (Watch.execute Session.maxRounds Tree.maxDepth p [] t o.watched) =
      Exec.execute Session.maxRounds Tree.maxDepth t o.session.machine :=
    (Watch.runs_walks Session.maxRounds Tree.maxDepth).2.1 p [] t o.watched
  unfold onMachine Session.onMachine
  rw [← h]
  cases Watch.execute Session.maxRounds Tree.maxDepth p [] t o.watched <;> rfl

/-- An observed program runs like a plain one. -/
theorem erases_execute (program : Nat) (ts : List Tree) :
    ∀ i, Erases Observation.session (execute program i ts) (Session.execute ts) := by
  induction ts with
  | nil => exact fun i => erases_pure ()
  | cons t ts ih =>
    intro i
    unfold execute Session.execute
    split
    · exact ih (i + 1)
    · refine (erases_onMachine _ t).bind fun result => ?_
      cases result with
      | ok _ => exact ih (i + 1)
      | error stop =>
        cases stop with
        | runtime | overflow => exact erases_plain _
        | fault | unfinished => exact erases_throw _

theorem erases_executeUnlessError (program : Program) :
    Erases Observation.session (executeUnlessError program)
      (Session.executeUnlessError program.resolved) := by
  refine (erases_plain get).bind fun s => ?_
  split
  · exact erases_pure ()
  · exact .look fun o => .silent (fun _ => rfl) (erases_execute _ _ _)

theorem erases_run (source : String) :
    Erases Observation.session (run source) (Session.run source) := by
  refine (erases_plain (Session.read source)).bind fun parsed => ?_
  refine (erases_plain get).bind fun s => ?_
  split
  · exact erases_pure ()
  · exact (erases_plain _).bind fun resolved => erases_executeUnlessError ⟨parsed, resolved⟩

end Observe

/-! ## Acts -/

/-- What is done in a session. -/
inductive Act where
  | run (source : String)
  | reset

namespace Act

/-- An act, as a step of the session. -/
def step : Act → Step Unit
  | run source => Session.run source
  | reset => Session.reset

/-- An act under observation. -/
def observed : Act → Observe Unit
  | run source => Observe.run source
  | reset => Observe.plain Session.reset

theorem erases_observed (act : Act) : Erases Observation.session act.observed act.step := by
  cases act with
  | run source => exact Observe.erases_run source
  | reset => exact Observe.erases_plain Session.reset

end Act

/-- The session after acts, each of which leaves a session however it ends. -/
def Session.after (s : Session) (acts : List Act) : Session :=
  acts.foldl (fun s act => stateAfter act.step s) s

/-- The observation after some acts. -/
def Observation.after (o : Observation) (acts : List Act) : Observation :=
  acts.foldl (fun o act => stateAfter act.observed o) o

/-- The observed session is the session. -/
theorem Observation.session_after (acts : List Act) :
    ∀ o : Observation, (o.after acts).session = o.session.after acts := by
  induction acts with
  | nil => exact fun _ => rfl
  | cons act acts ih =>
    intro o
    show ((stateAfter act.observed o).after acts).session = _
    rw [ih, act.erases_observed.stateAfter]
    rfl

/-! ## Reports -/

namespace Reporter

variable {r : Reporter} {ds : List Diagnostic}

/-- Where no static problem is on record, none has been reported. -/
theorem eq_nil_of_hadError (hds : ∀ d ∈ ds, d.isStatic = true)
    (h : (r.reportAll ds).hadError = false) : r.hadError = false ∧ ds = [] := by
  rw [reportAll_eq, Bool.or_eq_false_iff] at h
  refine ⟨h.1, ?_⟩
  cases ds with
  | nil => rfl
  | cons d ds => simp [hds d List.mem_cons_self] at h

/-- No error that was written has an unknown operator. -/
def Tame (r : Reporter) : Prop :=
  ∀ error, .runtime error ∈ r.written → (Stop.runtime error).Tame

theorem Tame.reportAll (h : r.Tame) (hds : ∀ error, .runtime error ∈ ds → (Stop.runtime error).Tame) :
    (r.reportAll ds).Tame := by
  intro error he
  simp only [reportAll_eq, Array.mem_append, List.mem_toArray] at he
  exact he.elim (h error) (hds error)

theorem Tame.reportStatic (h : r.Tame) (hds : ∀ d ∈ ds, d.isStatic = true) :
    (r.reportAll ds).Tame :=
  h.reportAll fun _ he => nomatch hds _ he

end Reporter

/-! ## Steps that execute nothing -/

theorem Quiet.refl (m : Machine) : Quiet m m := ⟨rfl, rfl, rfl, rfl, rfl⟩

/-- The machines differ only in what they have traced. -/
def Traced (m m' : Machine) : Prop :=
  ∃ trace : Trace, trace.blocked = m.trace.blocked ∧ m' = { m with trace }

namespace Traced

variable {m m' m'' : Machine}

theorem refl (m : Machine) : Traced m m := ⟨m.trace, rfl, rfl⟩

theorem trans (h : Traced m m') (h' : Traced m' m'') : Traced m m'' := by
  obtain ⟨trace, hb, rfl⟩ := h
  obtain ⟨trace', hb', rfl⟩ := h'
  exact ⟨trace', hb'.trans hb, rfl⟩

theorem blocked (h : Traced m m') : m'.trace.blocked = m.trace.blocked := by
  obtain ⟨trace, hb, rfl⟩ := h
  exact hb

theorem quiet (h : Traced m m') : Quiet m m' := by
  obtain ⟨trace, hb, rfl⟩ := h
  exact ⟨rfl, rfl, rfl, hb, rfl⟩

end Traced

namespace Session

variable {s : Session}

theorem note_ok (h : s.machine.trace.blocked = false) (line : String) :
    ∃ m, note line s = .ok () ⟨m, s.reporter⟩ ∧ Traced s.machine m := by
  refine ⟨s.machine.note 1 line, ?_, ?_⟩
  · unfold note
    rw [bind_of_ok (show (get : Step Session) s = .ok s s from rfl)]
    simp only [h, Bool.false_and, Bool.false_eq_true, if_false]
    rfl
  · unfold Machine.note
    split
    · exact ⟨s.machine.trace.write line, rfl, rfl⟩
    · exact .refl _

theorem fail_ok (h : s.machine.trace.blocked = false) (error : RuntimeError) :
    ∃ m, fail error s = .ok () ⟨m, s.reporter.reportAll [.runtime error]⟩ ∧ Traced s.machine m := by
  obtain ⟨m, hm, hq⟩ := note_ok h ("runtime error: " ++ error.cause.text)
  refine ⟨m, ?_, hq⟩
  unfold fail
  rw [bind_of_ok hm]
  rfl

/-- Reading gives the parsed statements, reports all problems and only traces. -/
theorem read_ok (h : s.machine.trace.blocked = false) {source : String} {parsed : Parsed}
    (hp : parse? (scan source).finish = some parsed) :
    ∃ m, read source s = .ok parsed.statements
        ⟨m, (s.reporter.reportAll (scan source).problems.toList).reportAll parsed.problems⟩ ∧
      Traced s.machine m := by
  let s₁ : Session := { s with reporter := s.reporter.reportAll (scan source).problems.toList }
  obtain ⟨m₁, hm₁, hq₁⟩ := note_ok (s := s₁) h
    ("scanned " ++ toString (scan source).finish.length ++ " tokens")
  let s₂ : Session := ⟨m₁, s₁.reporter.reportAll parsed.problems⟩
  obtain ⟨m₂, hm₂, hq₂⟩ := note_ok (s := s₂) (hq₁.blocked.trans h)
    ("parsed " ++ toString parsed.statements.length ++ " statements")
  refine ⟨m₂, ?_, hq₁.trans hq₂⟩
  unfold read
  simp only [hp, Option.getD_some]
  rw [bind_of_ok (show report _ s = .ok () s₁ from rfl), bind_of_ok hm₁]
  rw [bind_of_ok (show report _ ⟨m₁, s₁.reporter⟩ = .ok () s₂ from rfl)]
  exact bind_of_ok hm₂

/-- Resolving gives the statements, reports all problems and only traces. -/
theorem resolveNames_ok (h : s.machine.trace.blocked = false) {ts trees : List Tree}
    (ht : (resolve ts).statements = .ok trees) :
    ∃ m, resolveNames ts s = .ok trees ⟨m, s.reporter.reportAll (resolve ts).problems⟩ ∧
      Traced s.machine m := by
  let s₁ : Session := { s with reporter := s.reporter.reportAll (resolve ts).problems }
  obtain ⟨m, hm, hq⟩ := note_ok (s := s₁) h
    ("resolved " ++ toString (resolve ts).found ++ " local references")
  refine ⟨m, ?_, hq⟩
  unfold resolveNames
  rw [bind_of_ok (show report _ s = .ok () s₁ from rfl), ht]
  dsimp only
  rw [bind_of_ok hm]
  rfl

end Session

/-! ## Accepted programs -/

/-- Nothing is wrong with the program: it was parsed from a source, and it was resolved. -/
structure Program.Accepted (q : Program) : Prop where
  parsed : ∃ source, (scan source).problems = #[] ∧
    parse? (scan source).finish = some ⟨q.parsed, []⟩
  statements : (resolve q.parsed).statements = .ok q.resolved
  problems : (resolve q.parsed).problems = []

/-- Every source is parsed, what is wrong with it is a static problem, and where nothing is wrong
the program is of the right form. -/
theorem parse_scan (source : String) :
    ∃ parsed, parse? (scan source).finish = some parsed ∧
      (∀ d ∈ parsed.problems, d.isStatic = true) ∧
      (parsed.problems = [] → ∀ t ∈ parsed.statements, WellFormed .statement t) := by
  obtain ⟨ts, e, hts, he, hgenuine⟩ := scan_genuine source
  obtain ⟨trees, s, hx, hstatic, -⟩ :=
    Parser.program_ok (fun t ht => (hgenuine t ht).2) he Tree.maxDepth
  have hparse : parse? (scan source).finish = some ⟨trees, s.problems.toList⟩ := by
    rw [hts]
    exact parse_eq_some_iff.2 ⟨s, hx, rfl⟩
  refine ⟨_, hparse, fun d hd => hstatic d (Array.mem_toList_iff.1 hd),
    fun (h : s.problems.toList = []) => ?_⟩
  refine Parser.wellFormed_of_shaped (fun a ha hkind => ?_) (h ▸ hparse)
  rw [hts] at ha
  rcases List.mem_append.1 ha with ha | ha
  · exact (hgenuine a ha).1
  · exact absurd (List.mem_singleton.1 ha ▸ he) hkind

namespace Program.Accepted

variable {q : Program}

theorem wellFormed (h : q.Accepted) : ∀ t ∈ q.parsed, WellFormed .statement t := by
  obtain ⟨source, -, hp⟩ := h.parsed
  obtain ⟨parsed, hp', -, hw⟩ := parse_scan source
  obtain rfl := Option.some.inj (hp.symm.trans hp')
  exact hw rfl

/-- The statements are walked as what is around them says. -/
theorem entries (h : q.Accepted) : ∀ t ∈ q.parsed, Resolver.ReportsEntry t := by
  obtain ⟨source, -, hp⟩ := h.parsed
  exact fun t ht => Resolver.reported_shaped (named_scan source) (shaped_parse hp t ht)

theorem fine (h : q.Accepted) : Everywhere Resolver.Fine ⟨.body, []⟩ (.list q.resolved) := by
  obtain ⟨source, -, hp⟩ := h.parsed
  obtain ⟨trees, ht, -, hfine⟩ := resolve_fine hp h.wellFormed
  obtain rfl := Except.ok.inj (h.statements.symm.trans ht)
  exact hfine h.problems

end Program.Accepted

/-! ## Sessions in order -/

/-- The machine of the session is sound and back in the globals, its trace can be opened, and its
programs were accepted. -/
structure InOrder (o : Observation) : Prop where
  sound : Sound o.roots o.watched
  current : o.session.machine.current = o.session.machine.globals
  unblocked : o.session.machine.trace.blocked = false
  tame : o.session.reporter.Tame
  accepted : ∀ q ∈ o.programs, q.Accepted

/-- The step keeps the session in order, however it ends. It stops early only out of rounds. -/
def InOrder.Kept {α : Type} (x : Observe α) (o : Observation) (Q : α → Observation → Prop) : Prop :=
  Ends x o (fun a o' => InOrder o' ∧ Q a o') fun e o' => InOrder o' ∧ e = .unfinished

variable {Q : β → Observation → Prop}

namespace InOrder

variable {o : Observation} {n : Nat} {q : Program}

theorem allFine (h : InOrder o) : AllFine o.roots := by
  intro root hroot
  obtain ⟨q, hq, rfl⟩ := List.mem_map.1 hroot
  exact (h.accepted q hq).fine

/-- A machine with one empty scope is sound. -/
theorem sound_empty (m : Machine) (hs : m.store = (({} : Store).addScope none).2)
    (hg : m.globals = ⟨0⟩) : Sound [] ⟨m, #[none], #[none], #[], #[]⟩ := by
  have hb : ∀ (r : ScopeRef) (key : Name), m.store.bound? r key = none := by
    intro r key
    rw [hs, Store.bound?_addScope]
    exact Store.bound?_eq_none_of_size_le (Nat.zero_le _) key
  refine ⟨?_, rfl, ?_, ⟨?_, ?_⟩, hg, rfl, ?_, ?_, ?_, ?_, ?_, ?_, by simp, ?_, by simp, by simp⟩
  · rw [hs]
    rfl
  · rw [hs]
    rfl
  · rw [hs, hg, Store.chain_eq]
    rfl
  · rw [hs, hg]
    decide
  · intro r key v hv
    rw [hb] at hv
    cases hv
  · intro r v hv
    rw [hb] at hv
    cases hv
  · intro r v hv
    rw [hb] at hv
    cases hv
  · rw [hs]
    nofun
  · rw [hs]
    nofun
  · rw [hs]
    nofun
  · refine ⟨fun r hr => ?_, id⟩
    have hzero : r.index = 0 := by
      rw [hs] at hr
      simpa [Store.addScope] using hr
    rw [hzero]
    exact ⟨none, none, rfl, rfl, trivial⟩

/-- A new session is in order. -/
theorem start (detail : Nat) (clock : Clock) : InOrder (.start detail clock) where
  sound := by
    let m : Machine := ⟨(({} : Store).addScope none).2, ⟨0⟩, ⟨0⟩, #[], {}, detail, clock, 0⟩
    have h := sound_empty m rfl rfl
    show Sound []
      (Watched.define ⟨m, #[none], #[none], #[], #[]⟩ ⟨0⟩ Native.clock.name (.native .clock))
    exact h.define h.globals.lt_size h.open_globals trivial
      ⟨fun hk => absurd hk (by decide), fun hk => absurd hk (by decide)⟩
  current := rfl
  unblocked := rfl
  tame := fun _ he => absurd he (Array.not_mem_empty _)
  accepted := nofun

/-- The session after a part of a program has been executed. -/
theorem later (h : InOrder o) {w : Watched} (hl : Later o.roots o.watched w) :
    InOrder (o.withWatched w) where
  sound := hl.sound
  current := hl.current.trans (h.current.trans hl.grows.globals.symm)
  unblocked := hl.grows.blocked.trans h.unblocked
  tame := h.tame
  accepted := h.accepted

/-- The session after a step that only traces and reports. -/
theorem quiet (h : InOrder o) {m : Machine} (hq : Quiet o.session.machine m) {r : Reporter}
    (hr : r.Tame) : InOrder { o with session := ⟨m, r⟩ } where
  sound := (hq.later (w := o.watched) h.sound).sound
  current := hq.current.trans (h.current.trans hq.globals.symm)
  unblocked := hq.blocked.trans h.unblocked
  tame := hr
  accepted := h.accepted

theorem Kept.plain {α : Type} {step : Step α} (h : InOrder o) {a : α} {m : Machine} {r : Reporter}
    (hx : step o.session = .ok a ⟨m, r⟩) (hq : Quiet o.session.machine m) (hr : r.Tame)
    {Q : α → Observation → Prop} (hQ : Q a { o with session := ⟨m, r⟩ }) :
    Kept (Observe.plain step) o Q := by
  have hplain : Observe.plain step o = .ok a { o with session := ⟨m, r⟩ } := by
    unfold Observe.plain
    rw [hx]
  exact Ends.of_ok hplain ⟨h.quiet hq hr, hQ⟩

theorem Kept.bind {x : Observe α} {f : α → Observe β} {P : α → Observation → Prop} (hx : Kept x o P)
    (hf : ∀ a o', InOrder o' → P a o' → Kept (f a) o' Q) : Kept (x >>= f) o Q :=
  Ends.bind hx fun a o' ⟨ho, ha⟩ => hf a o' ho ha

theorem kept_fail (h : InOrder o) {error : RuntimeError} (he : (Stop.runtime error).Tame) :
    Kept (Observe.plain (Session.fail error)) o fun _ _ => True := by
  obtain ⟨m, hx, hq⟩ := Session.fail_ok h.unblocked error
  refine .plain h hx hq.quiet (h.tame.reportAll fun e hm => ?_) trivial
  cases List.mem_singleton.1 hm
  exact he

/-- The machine is at a statement of a program. -/
theorem here (h : InOrder o) {i : Nat} {t : Tree} (hq : o.programs[n]? = some q)
    (ht : q.resolved[i]? = some t) : Here o.roots o.watched ⟨n, [i]⟩ [] t ⟨.statement, []⟩ := by
  have hroot : o.roots[n]? = some (.list q.resolved) := by
    unfold Observation.roots
    rw [List.getElem?_map, hq]
    rfl
  have hcontext : contextAt (.list q.resolved) [i] = some ⟨.statement, []⟩ := by
    show some (Context.mk .statement ((q.resolved.take i).foldl Resolver.afterStatement [])) = _
    rw [Resolver.foldl_afterStatement_nil]
  refine ⟨⟨_, hroot, ht, hcontext⟩, ?_, ?_⟩
  · show Linked o.watched [] o.session.machine.current
    rw [h.current]
    exact h.sound.globals
  · have hsites : sitesOf o.roots ⟨n, [i]⟩ = [] := by
      unfold sitesOf
      rw [hroot]
      rfl
    rw [hsites]
    exact ⟨rfl, rfl, by simp⟩

/-- A statement of a program is executed, and if it stops then tamely. -/
theorem kept_onMachine (h : InOrder o) {i : Nat} {t : Tree} (hq : o.programs[n]? = some q)
    (ht : q.resolved[i]? = some t) :
    Kept (Observe.onMachine ⟨n, [i]⟩ t) o fun result o' => o'.programs = o.programs ∧
      ∀ stop, result = .error stop → stop.Tame := by
  have hsafe := (safe_walks h.allFine Session.maxRounds Tree.maxDepth).2.1 h.sound (h.here hq ht)
  unfold Kept Ends Observe.onMachine
  cases hx : Watch.execute Session.maxRounds Tree.maxDepth ⟨n, [i]⟩ [] t o.watched with
  | ok completion w => exact ⟨h.later (hsafe.ok hx).1, rfl, nofun⟩
  | error stop w =>
    obtain ⟨hl, hstop⟩ := hsafe.error hx
    refine ⟨h.later hl, rfl, ?_⟩
    rintro _ ⟨⟩
    exact hstop

/-- The run of a program keeps the observation in order. -/
theorem kept_execute {ts : List Tree} :
    ∀ {i : Nat} {o : Observation}, InOrder o → o.programs[n]? = some q → q.resolved.drop i = ts →
      Kept (Observe.execute n i ts) o fun _ _ => True := by
  induction ts with
  | nil => exact fun h _ _ => Ends.pure ⟨h, trivial⟩
  | cons t ts ih =>
    intro i o h hq hts
    have ht : q.resolved[i]? = some t := by
      rw [← List.head?_drop, hts]
      rfl
    have hrest : q.resolved.drop (i + 1) = ts := by
      rw [← List.tail_drop, hts]
      rfl
    unfold Observe.execute
    split
    · exact ih h hq hrest
    · refine (h.kept_onMachine hq ht).bind fun result o' ho ⟨hp, hstop⟩ => ?_
      cases result with
      | ok _ => exact ih ho (hp ▸ hq) hrest
      | error stop =>
        have htame := hstop stop rfl
        cases stop with
        | runtime error => exact ho.kept_fail htame
        | overflow => exact ho.kept_fail ⟨nofun, nofun⟩
        | fault f => exact htame.elim
        | unfinished => exact Ends.throw ⟨ho, rfl⟩

/-- The session with one more program to execute. -/
theorem addProgram (h : InOrder o) (hq : q.Accepted) :
    InOrder { o with programs := o.programs ++ [q] } :=
  { h with
    sound := by
      show Sound (List.map _ (o.programs ++ [q])) o.watched
      rw [List.map_append]
      exact h.sound.append _
    accepted := List.forall_mem_append.2 ⟨h.accepted, List.forall_mem_singleton.2 hq⟩ }

theorem Kept.look {f : Session → Observe β} (hf : Kept (f o.session) o Q) :
    Kept (Observe.plain get >>= f) o Q :=
  hf

theorem kept_executeUnlessError (h : InOrder o)
    (hq : o.session.reporter.hadError = false → q.Accepted) :
    Kept (Observe.executeUnlessError q) o fun _ _ => True := by
  refine .look ?_
  split
  · exact Ends.pure ⟨h, trivial⟩
  · next hno =>
    have h' := h.addProgram (hq (Bool.eq_false_iff.2 hno))
    exact kept_execute h' (q := q) (by simp) rfl

/-- The run of a source keeps the observation in order. -/
theorem kept_run (h : InOrder o) (source : String) :
    Kept (Observe.run source) o fun _ _ => True := by
  obtain ⟨⟨trees, problems⟩, hp, hstatic, hform⟩ := parse_scan source
  have hscan : ∀ d ∈ (scan source).problems.toList, d.isStatic = true :=
    fun d hd => scan_static source d (Array.mem_toList_iff.1 hd)
  obtain ⟨m, hx, hq⟩ := Session.read_ok h.unblocked hp
  have hread := Kept.plain h hx hq.quiet ((h.tame.reportStatic hscan).reportStatic hstatic)
    (Q := fun a o' => trees = a ∧ o'.session.reporter =
      (o.session.reporter.reportAll (scan source).problems.toList).reportAll problems) ⟨rfl, rfl⟩
  refine hread.bind ?_
  rintro _ o₁ h₁ ⟨rfl, hr₁⟩
  refine .look ?_
  split
  · exact Ends.pure ⟨h₁, trivial⟩
  · next hno =>
    rw [hr₁, Bool.not_eq_true] at hno
    obtain ⟨hno, rfl⟩ := Reporter.eq_nil_of_hadError hstatic hno
    obtain ⟨-, hnil⟩ := Reporter.eq_nil_of_hadError hscan hno
    obtain ⟨resolved, hres, hstatic', -⟩ := resolve_fine hp (hform rfl)
    obtain ⟨m', hx', hq'⟩ := Session.resolveNames_ok h₁.unblocked hres
    have hresolve := Kept.plain h₁ hx' hq'.quiet (h₁.tame.reportStatic hstatic')
      (Q := fun a o' => resolved = a ∧ o'.session.reporter =
        o₁.session.reporter.reportAll (resolve trees).problems) ⟨rfl, rfl⟩
    refine hresolve.bind ?_
    rintro _ o₂ h₂ ⟨rfl, hr₂⟩
    refine h₂.kept_executeUnlessError fun hno' => ?_
    rw [hr₂] at hno'
    exact ⟨⟨source, Array.ext' hnil, hp⟩, hres, (Reporter.eq_nil_of_hadError hstatic' hno').2⟩

theorem kept_observed (h : InOrder o) (act : Act) : Kept act.observed o fun _ _ => True := by
  cases act with
  | run source => exact h.kept_run source
  | reset =>
    have hreset : Session.reset o.session =
        .ok () ⟨o.session.machine, o.session.reporter.reset⟩ := rfl
    exact .plain h hreset (.refl _) h.tame trivial

/-- A session stays in order whatever is done in it. -/
theorem after (acts : List Act) : ∀ {o : Observation}, InOrder o → InOrder (o.after acts) := by
  induction acts with
  | nil => exact id
  | cons act acts ih =>
    intro o h
    refine ih (Ends.stateAfter (x := act.observed) ?_)
    exact Ends.imp (h.kept_observed act) (fun _ _ h => h.1) fun _ _ h => h.1

end InOrder

/-! ## What a session never does -/

/-- Whatever has been done in a session, a run of any source comes to its end, or else a loop has
used up its rounds: no malformed tree, missing scope or unbound name is ever met. No error that was
ever written is about an unknown operator. -/
theorem run_never_faults (detail : Nat) (clock : Clock) (acts : List Act) (source : String) :
    Ends (Session.run source) ((Session.start detail clock).after acts)
      (fun _ s => ∀ error, .runtime error ∈ s.reporter.written →
        error.cause ≠ .unknownUnary ∧ error.cause ≠ .unknownBinary)
      fun e s => e = .unfinished ∧ ∀ error, .runtime error ∈ s.reporter.written →
        error.cause ≠ .unknownUnary ∧ error.cause ≠ .unknownBinary := by
  have h := (InOrder.start detail clock).after acts
  have hs := Observation.session_after acts (.start detail clock)
  rw [show Session.start detail clock = (Observation.start detail clock).session from rfl, ← hs]
  refine (Observe.erases_run source).ends ?_
  exact Ends.imp (h.kept_run source) (fun _ _ h => h.1.tame) fun _ _ h => ⟨h.2, h.1.tame⟩

end LoxLang
