import LoxLang.Command
import LoxLang.Proofs.Sources
import LoxLang.Proofs.Tracing

/-!
# The static gate

A source is executed only if nothing is wrong with it. Where a static problem is on record, or is
found in the source, a run changes nothing but the trace and the reporter (`refused_run`). Where
none is, a run reports at most one error, at its end (`admitted_run`).

A prompt resets its reporter after each line. So after a line that is refused it goes on as before:
the two sessions differ in what they have traced and written (`Beside`), which no later line looks
at. The exit status of a script tells which kind of message was written.
-/

namespace LoxLang

open Traceable

/-! ## Reports -/

variable {ds : List Diagnostic} {s : Session}

namespace Reporter

theorem hadRuntimeError_reportAll {r : Reporter} (hds : ∀ d ∈ ds, d.isStatic = true) :
    (r.reportAll ds).hadRuntimeError = r.hadRuntimeError := by
  have hnone : ds.any (!·.isStatic) = false := by simpa using hds
  rw [reportAll_eq, hnone, Bool.or_false]

theorem reportAll_append (r : Reporter) (ds ds' : List Diagnostic) :
    r.reportAll (ds ++ ds') = (r.reportAll ds).reportAll ds' :=
  List.foldl_append

end Reporter

/-! ## Refused and admitted runs -/

/-- Nothing has changed but the trace and the reporter, to which static problems were reported. -/
structure Refused (s s' : Session) : Prop where
  machine : Traced s.machine s'.machine
  hadError : s'.reporter.hadError = true
  hadRuntimeError : s'.reporter.hadRuntimeError = s.reporter.hadRuntimeError
  reported : ∃ ds : List Diagnostic, (∀ d ∈ ds, d.isStatic = true) ∧
    (s.reporter.hadError = false → ds ≠ []) ∧
    s'.reporter.log.toList = s.reporter.log.toList ++ ds ∧
    s'.reporter.written.toList = s.reporter.written.toList ++ ds

/-- No static problem was reported, and at most one error, after all other messages. -/
structure Admitted (r r' : Reporter) : Prop where
  hadError : r'.hadError = false
  reported : r' = r ∨ ∃ error : RuntimeError, r' =
    { r with
      hadRuntimeError := true
      log := r.log.push (.runtime error)
      written := r.written.push (.runtime error) }

section Runs

variable {s : Session} {source : String}

/-- A report of static problems refuses the program. -/
theorem refused_reportAll {m : Machine} (hm : Traced s.machine m)
    (hds : ∀ d ∈ ds, d.isStatic = true) (h : (s.reporter.reportAll ds).hadError = true) :
    Refused s ⟨m, s.reporter.reportAll ds⟩ where
  machine := hm
  hadError := h
  hadRuntimeError := Reporter.hadRuntimeError_reportAll hds
  reported := by
    refine ⟨ds, hds, ?_, by simp [Reporter.reportAll_eq], by simp [Reporter.reportAll_eq]⟩
    rintro hs rfl
    exact absurd (hs.symm.trans h) nofun

/-- A static problem that is on record or in the source keeps the source from being executed. -/
theorem refused_run (hopen : s.machine.trace.blocked = false)
    (h : s.reporter.hadError = true ∨ ¬Clean source) :
    ∃ s', Session.run source s = .ok () s' ∧ Refused s s' := by
  obtain ⟨⟨trees, problems⟩, hp, hstatic, hform⟩ := parse_scan source
  have hscan : ∀ d ∈ (scan source).problems.toList, d.isStatic = true :=
    fun d hd => scan_static source d (Array.mem_toList_iff.1 hd)
  obtain ⟨m, hread, hm⟩ := Session.read_ok hopen hp
  rw [← Reporter.reportAll_append] at hread
  have hfound := List.forall_mem_append.2 ⟨hscan, hstatic⟩
  have hrun : Session.run source s = _ := bind_of_ok hread
  rw [bind_of_ok (show (get : Step Session) _ = .ok _ _ from rfl)] at hrun
  cases hr : (s.reporter.reportAll ((scan source).problems.toList ++ problems)).hadError with
  | true =>
    rw [if_pos hr] at hrun
    exact ⟨_, hrun, refused_reportAll hm hfound hr⟩
  | false =>
    -- nothing is wrong so far, so that the resolver finds the problem
    rw [if_neg (by simp [hr])] at hrun
    obtain ⟨hs, hnil⟩ := Reporter.eq_nil_of_hadError hfound hr
    obtain ⟨hscanned, rfl⟩ := List.append_eq_nil_iff.1 hnil
    rw [hnil] at hrun
    obtain ⟨resolved, hres, hstatic', -⟩ := resolve_fine hp (hform rfl)
    have hproblems : (resolve trees).problems ≠ [] := by
      intro hnone
      refine h.elim (by simp [hs]) fun hclean => hclean ⟨Array.ext' hscanned, ?_, ?_⟩
      · rw [hp]
        rfl
      · rw [hp]
        exact hnone
    obtain ⟨m', hresolve, hm'⟩ := Session.resolveNames_ok (s := ⟨m, s.reporter⟩)
      (hm.blocked.trans hopen) hres
    have hr' : (s.reporter.reportAll (resolve trees).problems).hadError = true := by
      by_contra hno
      exact hproblems (Reporter.eq_nil_of_hadError hstatic' (Bool.eq_false_iff.2 hno)).2
    refine ⟨_, ?_, refused_reportAll (hm.trans hm') hstatic' hr'⟩
    rw [hrun]
    refine (bind_of_ok hresolve).trans ?_
    rw [executeUnlessError_eq]
    exact if_pos hr'

section Reports

variable {r : Reporter}

/-- A runtime error is admitted by a reporter that has seen no error. -/
theorem ends_fail (error : RuntimeError) (hs : s.reporter = r) (h : r.hadError = false) :
    Ends (Session.fail error) s (fun _ s' => Admitted r s'.reporter)
      fun _ s' => s'.reporter = r := by
  have hnote : Ends (Session.note ("runtime error: " ++ error.cause.text)) s
      (fun _ s' => s'.reporter = r) fun _ s' => s'.reporter = r := by
    unfold Ends
    rw [Session.note_eq]
    by_cases hb : (s.machine.trace.blocked && decide (1 ≤ s.machine.detail)) = true
    · rw [if_pos hb]
      exact hs
    · rw [if_neg hb]
      exact hs
  refine hnote.bind fun _ s₁ h₁ => ends_modify ⟨?_, .inr ⟨error, ?_⟩⟩
  · simp [Reporter.reportAll, Reporter.report, h₁, h, Diagnostic.isStatic]
  · simp [Reporter.reportAll, Reporter.report, h₁, Diagnostic.isStatic]

theorem ends_onMachine (t : Tree) (hs : s.reporter = r) :
    Ends (Session.onMachine t) s (fun _ s' => s'.reporter = r) fun _ s' => s'.reporter = r := by
  unfold Ends Session.onMachine
  cases Exec.execute Session.maxRounds Tree.maxDepth t s.machine with
  | ok | error => exact hs

/-- Executing a program reports at most one error, after which nothing is executed. -/
theorem ends_execute (ts : List Tree) (h : r.hadError = false) :
    ∀ {s : Session}, s.reporter = r → Ends (Session.execute ts) s
      (fun _ s' => Admitted r s'.reporter) fun _ s' => s'.reporter = r := by
  induction ts with
  | nil => exact fun hs => Ends.pure ⟨hs ▸ h, .inl hs⟩
  | cons t ts ih =>
    intro s hs
    unfold Session.execute
    split
    · exact ih hs
    · refine (ends_onMachine t hs).bind fun result s₁ h₁ => ?_
      cases result with
      | ok _ => exact ih h₁
      | error stop =>
        cases stop with
        | runtime | overflow => exact ends_fail _ h₁ h
        | fault | unfinished => exact Ends.throw h₁

end Reports

/-- A source without static problems is executed if none is on record. -/
theorem admitted_run (hopen : s.machine.trace.blocked = false) (hs : s.reporter.hadError = false)
    (h : Clean source) : Ends (Session.run source) s (fun _ s' => Admitted s.reporter s'.reporter)
      fun _ s' => s'.reporter = s.reporter := by
  obtain ⟨q, hq⟩ := h.exists_program
  obtain ⟨m, -, hrun⟩ := hq.run_eq hopen hs
  unfold Ends
  rw [hrun]
  exact ends_execute q.resolved hs rfl

end Runs

/-! ## Messages of earlier lines -/

/-- The reporter with messages that were written before its own. -/
def Reporter.wrote (w : Array Diagnostic) (r : Reporter) : Reporter :=
  { r with written := w ++ r.written }

/-- The session with messages that were written before its own. -/
def Session.wrote (w : Array Diagnostic) (s : Session) : Session :=
  { s with reporter := s.reporter.wrote w }

section Wrote

variable (w : Array Diagnostic)

theorem Reporter.reportAll_wrote (ds : List Diagnostic) (r : Reporter) :
    (r.wrote w).reportAll ds = (r.reportAll ds).wrote w := by
  simp [reportAll_eq, wrote]

namespace Session

theorem erases_note (line : String) : Erases (wrote w) (note line) (note line) := by
  intro s
  rw [note_eq, note_eq]
  change seen (wrote w)
      (if s.machine.trace.blocked && decide (1 ≤ s.machine.detail) then _ else _) =
    if s.machine.trace.blocked && decide (1 ≤ s.machine.detail) then _ else _
  split
  · rfl
  · rfl

theorem erases_report (ds : List Diagnostic) : Erases (wrote w) (report ds) (report ds) := by
  intro s
  show EStateM.Result.ok () (Session.mk s.machine ((s.reporter.reportAll ds).wrote w)) = _
  rw [← Reporter.reportAll_wrote]
  rfl

theorem erases_fail (error : RuntimeError) : Erases (wrote w) (fail error) (fail error) :=
  (erases_note w _).bind fun _ => erases_report w _

theorem erases_onMachine (t : Tree) : Erases (wrote w) (onMachine t) (onMachine t) := by
  intro s
  have hmachine : (s.wrote w).machine = s.machine := rfl
  unfold onMachine
  rw [hmachine]
  cases Exec.execute maxRounds Tree.maxDepth t s.machine <;> rfl

/-- What was written before does not matter to a run. -/
theorem erases_execute (ts : List Tree) : Erases (wrote w) (execute ts) (execute ts) := by
  induction ts with
  | nil => exact erases_pure ()
  | cons t ts ih =>
    unfold execute
    split
    · exact ih
    · refine (erases_onMachine w t).bind fun result => ?_
      cases result with
      | ok _ => exact ih
      | error stop =>
        cases stop with
        | runtime | overflow => exact erases_fail w _
        | fault | unfinished => exact erases_throw _

theorem erases_resolveNames (ts : List Tree) :
    Erases (wrote w) (resolveNames ts) (resolveNames ts) := by
  refine (erases_report w _).bind fun _ => ?_
  split
  · exact erases_throw _
  · exact (erases_note w _).bind fun _ => erases_pure _

theorem erases_read (source : String) : Erases (wrote w) (read source) (read source) := by
  refine (erases_report w _).bind fun _ => (erases_note w _).bind fun _ => ?_
  exact (erases_report w _).bind fun _ => (erases_note w _).bind fun _ => erases_pure _

/-- A look at whether a static problem is on record. -/
theorem erases_unlessError {x : Step Unit} (hx : Erases (wrote w) x x) :
    Erases (wrote w) (do if (← get).reporter.hadError then return () else x)
      (do if (← get).reporter.hadError then return () else x) := by
  intro s
  change seen (wrote w) ((if s.reporter.hadError then pure () else x : Step Unit) s) =
    (if s.reporter.hadError then pure () else x : Step Unit) (s.wrote w)
  cases s.reporter.hadError with
  | true => rfl
  | false => exact hx s

/-- A run does not look at the messages of earlier lines. -/
theorem erases_run (source : String) : Erases (wrote w) (run source) (run source) := by
  refine (erases_read w source).bind fun statements => erases_unlessError w ?_
  refine (erases_resolveNames w statements).bind fun resolved => ?_
  exact erases_unlessError w (erases_execute w resolved)

end Session

end Wrote

/-! ## Sessions beside each other -/

/-- The sessions differ only in what they have traced and written. -/
def Beside (s s' : Session) : Prop :=
  ∃ (t : Session) (trace : Trace) (w w' : Array Diagnostic), s = t.wrote w ∧
    s' = (retrace Abort t.machine.detail trace t).wrote w'

namespace Beside

variable {s s' : Session}

theorem shown_eq (h : Beside s s') : s'.shown = s.shown := by
  obtain ⟨t, trace, w, w', rfl, rfl⟩ := h
  rfl

/-- Sessions beside each other stay so, whatever they run. -/
theorem run (h : Beside s s') (hs : Orderly s) (hs' : Orderly s') (source : String) :
    match Session.run source s, Session.run source s' with
    | .ok _ s₁, .ok _ s₁' => Beside s₁ s₁'
    | .error e s₁, .error e' s₁' => e' = e ∧ Beside s₁ s₁'
    | _, _ => False := by
  obtain ⟨t, trace, w, w', rfl, rfl⟩ := h
  have hagree := Session.observes_run source t t.machine.detail trace
  have hgaveUp := @Orderly.not_gaveUp _ hs source
  have hgaveUp' := @Orderly.not_gaveUp _ hs' source
  rw [← Session.erases_run w source t] at hgaveUp ⊢
  rw [← Session.erases_run w' source (retrace Abort t.machine.detail trace t)] at hgaveUp' ⊢
  have hbeside {t₁ t₁' : Session} (hn : Noted Abort t t.machine.detail trace t₁ t₁') :
      Beside (t₁.wrote w) (t₁'.wrote w') := by
    obtain ⟨notes, hdetail, -, rfl⟩ := hn
    refine ⟨t₁, trace.add t.machine.detail notes, w, w', rfl, ?_⟩
    rw [show t₁.machine.detail = t.machine.detail from hdetail]
  generalize Session.run source t = r at hagree hgaveUp ⊢
  generalize Session.run source (retrace Abort t.machine.detail trace t) = r' at hagree hgaveUp' ⊢
  cases hagree with
  | ok hn => exact hbeside hn
  | error hn => exact ⟨rfl, hbeside hn⟩
  | left he => exact absurd he (hgaveUp _ _ rfl)
  | right he => exact absurd he (hgaveUp' _ _ rfl)

end Beside

/-! ## Turns of a prompt -/

/-- The session at the next line of a prompt. -/
def Session.next (s : Session) : Session :=
  ⟨{ s.machine with output := #[] }, s.reporter.reset⟩

theorem Beside.next {s' : Session} (h : Beside s s') : Beside s.next s'.next := by
  obtain ⟨t, trace, w, w', rfl, rfl⟩ := h
  exact ⟨t.next, trace, w, w', rfl, rfl⟩

theorem Orderly.next (h : Orderly s) : Orderly s.next := by
  obtain ⟨o, ho, rfl⟩ := h
  have hquiet : Quiet o.session.machine o.session.next.machine := ⟨rfl, rfl, rfl, rfl, rfl⟩
  exact ⟨_, ho.quiet hquiet (r := o.session.next.reporter) ho.tame, rfl⟩

namespace Command

/-- A turn of the prompt is a run of its line. -/
theorem promptLine_eq (line : String) (s : Session) :
    promptLine line s =
      match Session.run line s with
      | .ok _ s' => .ok s'.machine.printed s'.next
      | .error reason s' => .error reason s' := by
  unfold promptLine
  cases h : Session.run line s with
  | ok a s' =>
    rw [bind_of_ok h]
    rfl
  | error reason s' => rw [bind_of_error h]

/-- The text that a line of a prompt has printed. -/
def text (turn : Shown) : String :=
  String.join (turn.output.map (· ++ "\n"))

/-- What can be seen of a session after each line of a prompt, why a line was given up if one was,
and the session in the end. -/
def promptTurns (s : Session) : List String → List Shown × Option Abort × Session
  | [] => ([], none, s)
  | line :: lines =>
    match Session.run line s with
    | .ok _ s =>
      let (shown, reason, last) := promptTurns s.next lines
      (s.shown :: shown, reason, last)
    | .error reason s => ([s.shown], some reason, s)

section Turns

variable {s s' s₁ : Session} {line : String} {lines : List String}

theorem promptTurns_ok (h : Session.run line s = .ok () s₁) :
    promptTurns s (line :: lines) = (s₁.shown :: (promptTurns s₁.next lines).1,
      (promptTurns s₁.next lines).2) := by
  rw [promptTurns, h]

theorem promptTurns_error {reason : Abort} (h : Session.run line s = .error reason s₁) :
    promptTurns s (line :: lines) = ([s₁.shown], some reason, s₁) := by
  rw [promptTurns, h]

/-- Sessions beside each other show the same from then on. -/
theorem promptTurns_beside (lines : List String) : ∀ {s s' : Session}, Beside s s' → Orderly s →
    Orderly s' → ∃ shown reason t t', promptTurns s lines = (shown, reason, t) ∧
      promptTurns s' lines = (shown, reason, t') ∧ Beside t t' := by
  induction lines with
  | nil => exact fun h _ _ => ⟨[], none, _, _, rfl, rfl, h⟩
  | cons line lines ih =>
    intro s s' h hs hs'
    have hrun := h.run hs hs' line
    split at hrun
    · next s₁ _ s₁' hx hx' =>
      obtain ⟨shown, reason, t, t', ht, ht', hb⟩ := ih hrun.next ((hs.ends_run line).ok hx).next
        ((hs'.ends_run line).ok hx').next
      refine ⟨s₁.shown :: shown, reason, t, t', ?_, ?_, hb⟩
      · rw [promptTurns_ok hx, ht]
      · rw [promptTurns_ok hx', ht', hrun.shown_eq]
    · next hx hx' =>
      obtain ⟨rfl, hb⟩ := hrun
      refine ⟨_, _, _, _, promptTurns_error hx, ?_, hb⟩
      rw [promptTurns_error hx', hb.shown_eq]
    · exact hrun.elim

/-- Turns can be taken in two parts. -/
theorem promptTurns_append (before lines : List String) : ∀ s : Session,
    promptTurns s (before ++ lines) =
      match promptTurns s before with
      | (shown, some reason, t) => (shown, some reason, t)
      | (shown, none, t) => (shown ++ (promptTurns t lines).1, (promptTurns t lines).2) := by
  induction before with
  | nil => exact fun _ => rfl
  | cons line before ih =>
    intro s
    cases h : Session.run line s with
    | ok _ s₁ =>
      rw [List.cons_append, promptTurns_ok h, promptTurns_ok h, ih]
      obtain ⟨shown, reason, t⟩ := promptTurns s₁.next before
      cases reason <;> rfl
    | error reason s₁ => rw [List.cons_append, promptTurns_error h, promptTurns_error h]

/-- Nothing was printed or reported since the last line. -/
structure Resting (s : Session) : Prop where
  output : s.machine.output = #[]
  reporter : s.reporter = { written := s.reporter.written }

theorem resting_next (s : Session) : Resting s.next := ⟨rfl, rfl⟩

/-- At the lines of a prompt a session is in order, and nothing has been reported. -/
theorem promptTurns_keeps (lines : List String) : ∀ {s : Session}, Orderly s → Resting s →
    (promptTurns s lines).2.1 = none →
      Orderly (promptTurns s lines).2.2 ∧ Resting (promptTurns s lines).2.2 := by
  induction lines with
  | nil => exact fun hs hr _ => ⟨hs, hr⟩
  | cons line lines ih =>
    intro s hs _ hnone
    cases h : Session.run line s with
    | ok _ s₁ =>
      rw [promptTurns_ok h] at hnone ⊢
      exact ih ((hs.ends_run line).ok h).next (resting_next s₁) hnone
    | error reason s₁ =>
      rw [promptTurns_error h] at hnone
      cases hnone

/-- After a line that is refused the session is beside what it was. -/
theorem Resting.beside (hr : Resting s) (h : Refused s s') : Beside s s'.next := by
  obtain ⟨trace, -, hm⟩ := h.machine
  refine ⟨⟨s.machine, {}⟩, trace, s.reporter.written, s'.reporter.written, ?_, ?_⟩
  · have hreporter : s.reporter = Reporter.wrote s.reporter.written {} := by
      rw [hr.reporter]
      simp [Reporter.wrote]
    show Session.mk s.machine s.reporter =
      Session.mk s.machine (Reporter.wrote s.reporter.written {})
    rw [← hreporter]
  · have hreporter : s'.next.reporter = Reporter.wrote s'.reporter.written {} := by
      simp [Session.next, Reporter.reset, Reporter.wrote]
    have hmachine : s'.next.machine = { s.machine with trace } := by
      show { s'.machine with output := #[] } = _
      rw [hm, ← hr.output]
    show Session.mk s'.next.machine s'.next.reporter = _
    rw [hmachine, hreporter]
    rfl

/-- A line that is refused is seen, and all that follows is the same without it. -/
theorem promptTurns_refused {bad : String} (hbad : ¬Clean bad) (hs : Orderly s) (hr : Resting s)
    (after : List String) :
    ∃ turn rest reason t t', promptTurns s after = (rest, reason, t) ∧
      promptTurns s (bad :: after) = (turn :: rest, reason, t') ∧ Beside t t' ∧
      turn.output = [] ∧ turn.messages ≠ [] ∧ turn.hadError = true ∧ turn.hadRuntimeError = false ∧
      turn.globals = s.shown.globals := by
  obtain ⟨⟨m, r⟩, hrun, href⟩ := refused_run hs.unblocked (.inr hbad)
  obtain ⟨rest, reason, t, t', ht, ht', hb⟩ := promptTurns_beside after (hr.beside href) hs
    ((hs.ends_run bad).ok hrun).next
  obtain ⟨trace, -, hm⟩ := href.machine
  obtain rfl : m = { s.machine with trace } := hm
  refine ⟨Session.shown ⟨{ s.machine with trace }, r⟩, rest, reason, t, t', ht, ?_, hb, ?_, ?_,
    href.hadError, ?_, rfl⟩
  · rw [promptTurns_ok hrun, ht']
  · exact congrArg Array.toList hr.output
  · obtain ⟨ds, -, hne, hlog, -⟩ := href.reported
    show r.log.toList.map Diagnostic.text ≠ []
    rw [show r.log.toList = _ from hlog, hr.reporter]
    simpa using hne (by rw [hr.reporter])
  · rw [show (Session.shown _).hadRuntimeError = _ from href.hadRuntimeError, hr.reporter]

/-- What a prompt writes are its turns, each with a prompt text before it. -/
theorem promptFrom_eq (lines : List String) : ∀ (shown : List String) (s : Session),
    promptFrom shown s lines =
      ((if (promptTurns s lines).2.1.isNone then [promptText] else []) ++
        (promptTurns s lines).1.reverse.flatMap (fun turn => [text turn, promptText]) ++ shown,
        (promptTurns s lines).2) := by
  induction lines with
  | nil => exact fun _ _ => rfl
  | cons line lines ih =>
    intro shown s
    rw [promptFrom, promptLine_eq]
    cases h : Session.run line s with
    | ok _ s₁ =>
      rw [promptTurns_ok h]
      dsimp only
      rw [ih]
      simp [text, Session.shown, Machine.printed]
    | error reason s₁ =>
      rw [promptTurns_error h]
      simp [text, Session.shown, Machine.printed]

/-- A run adds the same messages to those since the last line and to those that were written. -/
theorem writes_run (hs : Orderly s) (source : String) :
    Ends (Session.run source) s
      (fun _ s' => ∃ ds : List Diagnostic, s'.reporter.log.toList = s.reporter.log.toList ++ ds ∧
        s'.reporter.written.toList = s.reporter.written.toList ++ ds)
      fun _ s' => s'.reporter = s.reporter := by
  by_cases h : s.reporter.hadError = true ∨ ¬Clean source
  · obtain ⟨s₁, hrun, href⟩ := refused_run hs.unblocked h
    obtain ⟨ds, -, -, hds⟩ := href.reported
    exact .of_ok hrun ⟨ds, hds⟩
  · rw [not_or, not_not, Bool.not_eq_true] at h
    refine (admitted_run hs.unblocked h.1 h.2).imp (fun _ s' hs' => ?_) fun _ _ => id
    obtain hsame | ⟨error, hpush⟩ := hs'.reported
    · exact ⟨[], by simp [hsame]⟩
    · exact ⟨[.runtime error], by simp [hpush]⟩

/-- What is written in a prompt are the messages of its turns. -/
theorem written_promptTurns (lines : List String) : ∀ {s : Session}, Orderly s → Resting s →
    (promptTurns s lines).2.2.reporter.written.toList.map Diagnostic.text =
      s.reporter.written.toList.map Diagnostic.text ++
        (promptTurns s lines).1.flatMap Shown.messages := by
  induction lines with
  | nil => exact fun _ _ => (List.append_nil _).symm
  | cons line lines ih =>
    intro s hs hr
    cases h : Session.run line s with
    | ok _ s₁ =>
      obtain ⟨ds, hlog, hwritten⟩ := (writes_run hs line).ok h
      rw [promptTurns_ok h, ih ((hs.ends_run line).ok h).next (resting_next s₁)]
      show s₁.reporter.written.toList.map Diagnostic.text ++ _ = _
      rw [hwritten]
      rw [hr.reporter] at hlog
      simp [Session.shown, Reporter.messages, hlog]
    | error reason s₁ =>
      have hsame := (writes_run hs line).error h
      have hnone : s.reporter.messages = [] := by
        rw [hr.reporter]
        rfl
      rw [promptTurns_error h]
      simp [Session.shown, hsame, hnone]

end Turns

/-! ## Scripts -/

/-- The reply of a script that has written the messages: its exit status tells of which kind they
are, and with a static problem nothing is printed. -/
structure Tells (reply : Reply) (ds : List Diagnostic) : Prop where
  err : reply.err = String.join (ds.map fun d => d.text ++ "\n")
  static : reply.status.code = 65 ↔ ∃ d ∈ ds, d.isStatic = true
  silent : reply.status.code = 65 → reply.out = ""
  runtime : reply.status.code = 70 ↔ ∃ d ∈ ds, d.isStatic = false
  success : reply.status.code = 0 ↔ ds = []

section Scripts

variable {s s₁ : Session} {source : String}

/-- The reply of a new session whose flags tell of which kind the messages are that it has
written. -/
theorem tells_of_flags
    (hstatic : s.reporter.hadError = true ↔ ∃ d ∈ s.reporter.written.toList, d.isStatic = true)
    (hruntime : s.reporter.hadRuntimeError = true ↔
      ∃ d ∈ s.reporter.written.toList, d.isStatic = false)
    (hgate : s.reporter.hadError = true →
      s.reporter.hadRuntimeError = false ∧ s.machine.printed = "") :
    Tells (sessionReply s s.machine.printed (.ofReporter s.reporter))
      s.reporter.written.toList := by
  have hcode : (sessionReply s s.machine.printed (.ofReporter s.reporter)).status.code =
      if s.reporter.hadError then 65 else if s.reporter.hadRuntimeError then 70 else 0 := by
    show (Status.ofReporter s.reporter).code = _
    rw [Status.ofReporter]
    split
    · rfl
    · split <;> rfl
  have hnil : s.reporter.hadError = false ∧ s.reporter.hadRuntimeError = false ↔
      s.reporter.written.toList = [] := by
    rw [← Bool.not_eq_true, ← Bool.not_eq_true, hstatic, hruntime, List.eq_nil_iff_forall_not_mem]
    constructor
    · rintro ⟨hno, hno'⟩ d hd
      cases h : d.isStatic with
      | true => exact hno ⟨d, hd, h⟩
      | false => exact hno' ⟨d, hd, h⟩
    · exact fun hno => ⟨fun ⟨d, hd, _⟩ => hno d hd, fun ⟨d, hd, _⟩ => hno d hd⟩
  refine ⟨rfl, ?_, ?_, ?_, ?_⟩
  · rw [hcode, ← hstatic]
    cases s.reporter.hadError <;> cases s.reporter.hadRuntimeError <;> decide
  · rw [hcode]
    intro h
    refine (hgate ?_).2
    revert h
    cases s.reporter.hadError <;> cases s.reporter.hadRuntimeError <;> decide
  · rw [hcode, ← hruntime]
    cases he : s.reporter.hadError with
    | true => simp [(hgate he).1]
    | false => cases s.reporter.hadRuntimeError <;> decide
  · rw [hcode, ← hnil]
    cases s.reporter.hadError <;> cases s.reporter.hadRuntimeError <;> decide

/-- The reply of a refused script tells of its problems. -/
theorem tells_refused (hs : s.reporter = {}) (hout : s.machine.output = #[]) (h : Refused s s₁) :
    Tells (sessionReply s₁ s₁.machine.printed (.ofReporter s₁.reporter))
      s₁.reporter.written.toList := by
  obtain ⟨ds, hstatic, hne, -, hds⟩ := h.reported
  obtain ⟨trace, -, hm⟩ := h.machine
  have hruntime : s₁.reporter.hadRuntimeError = false := by rw [h.hadRuntimeError, hs]
  have hprinted : s₁.machine.printed = "" := by
    rw [hm, Machine.printed, hout]
    rfl
  obtain ⟨d, hd⟩ := List.exists_mem_of_ne_nil ds (hne (by rw [hs]))
  rw [hs] at hds
  refine tells_of_flags ?_ ?_ fun _ => ⟨hruntime, hprinted⟩
  · rw [hds]
    exact ⟨fun _ => ⟨d, hd, hstatic d hd⟩, fun _ => h.hadError⟩
  · rw [hds, hruntime]
    exact ⟨nofun, fun ⟨d, hd, hno⟩ => hno.symm.trans (hstatic d hd)⟩

/-- The reply of an admitted script tells of its error. -/
theorem tells_admitted (hs : s.reporter = {}) (h : Admitted s.reporter s₁.reporter) :
    Tells (sessionReply s₁ s₁.machine.printed (.ofReporter s₁.reporter))
      s₁.reporter.written.toList := by
  have hgate : s₁.reporter.hadError = true →
      s₁.reporter.hadRuntimeError = false ∧ s₁.machine.printed = "" :=
    fun he => absurd (h.hadError.symm.trans he) nofun
  rw [hs] at h
  obtain hsame | ⟨error, hpush⟩ := h.reported
  · refine tells_of_flags ?_ ?_ hgate
    · simp [hsame]
    · simp [hsame]
  · refine tells_of_flags ?_ ?_ hgate
    · simp [hpush, Diagnostic.isStatic]
    · simp [hpush, Diagnostic.isStatic]

/-- A script tells what it has reported, or it does not end. -/
theorem tells_start (detail : Nat) (clock : Clock) (source : String) :
    Ends (Session.run source) (.start detail clock)
      (fun _ s => Tells (sessionReply s s.machine.printed (.ofReporter s.reporter))
        s.reporter.written.toList)
      fun e _ => e = .unfinished := by
  by_cases h : Clean source
  · have hreports := admitted_run (s := .start detail clock) rfl rfl h
    have hends := (orderly_after detail clock []).ends_run source
    cases hx : Session.run source (.start detail clock) with
    | ok _ s => exact .of_ok hx (tells_admitted (s := .start detail clock) rfl (hreports.ok hx))
    | error e s => exact .of_error hx (hends.error hx).1
  · obtain ⟨s, hx, href⟩ := refused_run (s := .start detail clock) rfl (.inr h)
    exact .of_ok hx (tells_refused rfl rfl href)

/-- A script runs out of rounds, or its exit status tells what it has written. Where nothing is
traced it does not matter whether the trace can be opened. -/
theorem tells_startTracing {detail : Nat} {blocked : Bool} (h : blocked = true → detail = 0)
    (clock : Clock) (source : String) :
    Ends (Session.run source) (.startTracing detail clock blocked)
      (fun _ s => Tells (sessionReply s s.machine.printed (.ofReporter s.reporter))
        s.reporter.written.toList)
      fun e _ => e = .unfinished := by
  have hends := tells_start detail clock source
  cases blocked with
  | false => exact hends
  | true =>
    obtain rfl := h rfl
    have hagree := Session.observes_run source (.start 0 clock) 0 { blocked := true }
    have hstart : Session.startTracing 0 clock true =
        retrace Abort 0 { blocked := true } (.start 0 clock) := rfl
    unfold Ends at hends ⊢
    rw [hstart]
    generalize Session.run source (.start 0 clock) = result at hagree hends
    generalize Session.run source (retrace Abort 0 { blocked := true } (.start 0 clock)) = result'
      at hagree
    cases hagree with
    | ok hn =>
      obtain ⟨notes, -, -, rfl⟩ := hn
      exact ⟨hends.err, hends.static, hends.silent, hends.runtime, hends.success⟩
    | error hn => exact hends
    | left _ hd | right _ hd => exact absurd hd (Nat.lt_irrefl 0)

end Scripts

/-! ## The gate -/

/-- In a prompt with the line `bad` after the lines `before`, all other lines show what they show
without it. The line itself shows nothing but messages. -/
def Unaffected (s : Session) (before : List String) (bad : String) (after : List String) : Prop :=
  match promptTurns s before with
  | (shown, some reason, t) =>
    promptTurns s (before ++ after) = (shown, some reason, t) ∧
      promptTurns s (before ++ bad :: after) = (shown, some reason, t)
  | (shown, none, t) =>
    ∃ turn rest reason t₁ t₂, promptTurns s (before ++ after) = (shown ++ rest, reason, t₁) ∧
      promptTurns s (before ++ bad :: after) = (shown ++ turn :: rest, reason, t₂) ∧
      t₂.shown = t₁.shown ∧ turn.output = [] ∧ turn.messages ≠ [] ∧ turn.hadError = true ∧
      turn.hadRuntimeError = false ∧ turn.globals = t.shown.globals

/-- A line with an error changes nothing for the lines after it. -/
theorem unaffected (hs : Orderly s) (hr : Resting s) (before : List String) {bad : String}
    (hbad : ¬Clean bad) (after : List String) : Unaffected s before bad after := by
  have hkeeps := promptTurns_keeps before hs hr
  unfold Unaffected
  rw [promptTurns_append, promptTurns_append]
  generalize promptTurns s before = turns at hkeeps
  obtain ⟨shown, reason, t⟩ := turns
  cases reason with
  | some reason => exact ⟨rfl, rfl⟩
  | none =>
    obtain ⟨horderly, hresting⟩ := hkeeps rfl
    obtain ⟨turn, rest, reason, t₁, t₂, hwithout, hwith, hb, hturn⟩ :=
      promptTurns_refused hbad horderly hresting after
    refine ⟨turn, rest, reason, t₁, t₂, ?_, ?_, hb.shown_eq, hturn⟩
    · dsimp only
      rw [hwithout]
    · dsimp only
      rw [hwith]

/-- The reply of a prompt is put together from its turns. -/
structure ShowsTurns (reply : Reply) (turns : List Shown) (reason : Option Abort) : Prop where
  out : reply.out = String.join
    (turns.flatMap (fun turn => [promptText, text turn]) ++
      if reason.isNone then [promptText] else [])
  err : reply.err = String.join ((turns.flatMap Shown.messages).map (· ++ "\n"))

/-- A prompt shows its turns. -/
theorem showsTurns (hs : Orderly s) (hr : Resting s) (hnone : s.reporter.written = #[])
    (input : String) :
    ShowsTurns (runPrompt input s) (promptTurns s (linesOf input)).1
      (promptTurns s (linesOf input)).2.1 := by
  have hwritten := written_promptTurns (linesOf input) hs hr
  rw [hnone] at hwritten
  unfold runPrompt
  rw [promptFrom_eq]
  constructor
  · show String.join _ = _
    congr 1
    cases (promptTurns s (linesOf input)).2.1 with
    | none => simp [List.reverse_flatMap, Function.comp_def]
    | some reason => simp [List.reverse_flatMap, Function.comp_def]
  · show String.join ((promptTurns s (linesOf input)).2.2.reporter.written.toList.map _) = _
    rw [← List.nil_append (List.flatMap _ _), ← show _ = [] ++ _ from hwritten, List.map_map]
    rfl

/-- The static gate. Whatever has been done in a session, a source is refused if a static problem is
on record or is found in it, and admitted otherwise. So a line with a static problem affects no
other line of a prompt, whose reply is made of what its lines show. The exit status of a script
tells of which kind the messages are that it has written. -/
theorem static_gate :
    (∀ (detail : Nat) (clock : Clock) (acts : List Act) (source : String),
      let s := (Session.start detail clock).after acts
      (s.reporter.hadError = true ∨ ¬Clean source →
        ∃ s', Session.run source s = .ok () s' ∧ Refused s s') ∧
      (s.reporter.hadError = false → Clean source →
        Ends (Session.run source) s (fun _ s' => Admitted s.reporter s'.reporter)
          fun e s' => e = .unfinished ∧ s'.reporter = s.reporter)) ∧
    (∀ (detail : Nat) (clock : Clock) (before : List String) (bad : String) (after : List String),
      ¬Clean bad → Unaffected (.start detail clock) before bad after) ∧
    (∀ (detail : Nat) (clock : Clock) (input : String),
      ShowsTurns (runPrompt input (.start detail clock))
        (promptTurns (.start detail clock) (linesOf input)).1
        (promptTurns (.start detail clock) (linesOf input)).2.1) ∧
    ∀ (path : Path) (detail : Nat) (find : Path → Source) (input : String) (clock : Clock)
      (source : String), sourceText path (find path) = .ok source →
      (find tracePath = .folder → detail = 0) →
      let reply := (Request.script path detail).perform find input clock
      Ends (Session.run source)
        (.startTracing detail clock (find tracePath matches .folder))
        (fun _ s => Tells reply s.reporter.written.toList)
        fun e _ => e = .unfinished ∧ reply.status = .crashed (.abort .unfinished) := by
  have hstart (detail : Nat) (clock : Clock) : Orderly (.start detail clock) :=
    orderly_after detail clock []
  refine ⟨fun detail clock acts source => ?_, fun detail clock before bad after hbad => ?_,
    fun detail clock input => ?_, fun path detail find input clock source htext hopen => ?_⟩
  · intro s
    have hs : Orderly s := orderly_after detail clock acts
    refine ⟨refused_run hs.unblocked, fun hno hclean => ?_⟩
    have hreports := admitted_run hs.unblocked hno hclean
    have hends := hs.ends_run source
    cases hx : Session.run source s with
    | ok _ s' => exact .of_ok hx (hreports.ok hx)
    | error e s' => exact .of_error hx ⟨(hends.error hx).1, hreports.error hx⟩
  · exact unaffected (hstart detail clock) ⟨rfl, rfl⟩ before hbad after
  · exact showsTurns (hstart detail clock) ⟨rfl, rfl⟩ rfl input
  · have hreply : (Request.script path detail).perform find input clock =
        runStep (Session.run source)
          (.startTracing detail clock (find tracePath matches .folder)) := by
      unfold Request.perform
      dsimp only
      generalize sourceText path (find path) = text at htext ⊢
      cases htext
      rfl
    have hblocked (hb : (find tracePath matches .folder) = true) : detail = 0 :=
      hopen (by
        split at hb
        · next hf => exact hf
        · cases hb)
    have hends := tells_startTracing hblocked clock source
    rw [hreply]
    cases hx : Session.run source (.startTracing detail clock (find tracePath matches .folder)) with
    | ok _ s =>
      refine .of_ok hx ?_
      rw [runStep, hx]
      exact hends.ok hx
    | error e s =>
      obtain rfl := hends.error hx
      refine .of_error hx ⟨rfl, ?_⟩
      rw [runStep, hx]
      rfl

/-- A static problem that is found after a name has been resolved. -/
def ownInitializer : String := "\x7b var a = nil; print a; var b = b; \x7d"

/-- A variable that reads itself is refused, and the session goes on. -/
theorem static_gate_ownInitializer :
    ¬Clean ownInitializer ∧ Clean "print x;" ∧
    (∃ s', Session.run ownInitializer ((Session.start 0 (.still 0)).after [.run "var x = \"a\";"]) =
        .ok () s' ∧
      Refused ((Session.start 0 (.still 0)).after [.run "var x = \"a\";"]) s') ∧
    Ends (Session.run "print x;") (.start 0 (.still 0)) (fun _ s => Admitted {} s.reporter)
      (fun e s => e = .unfinished ∧ s.reporter = {}) ∧
    Unaffected (.start 0 (.still 0)) ["var x = \"a\";"] ownInitializer ["print x;"] ∧
    let find : Path → Source := fun _ => .file ownInitializer.toUTF8
    let reply := (Request.script (.ofString "a.lox") 0).perform find "" (.still 0)
    Ends (Session.run ownInitializer) (.startTracing 0 (.still 0) false)
      (fun _ s => Tells reply s.reporter.written.toList)
      fun e _ => e = .unfinished ∧ reply.status = .crashed (.abort .unfinished) := by
  have hbad : ¬Clean ownInitializer := by decide +kernel
  have hprint : Clean "print x;" := by decide +kernel
  have htext : sourceText (.ofString "a.lox") (.file ownInitializer.toUTF8) =
      .ok ownInitializer := by
    have hread : Text.ofFile? ownInitializer.toUTF8 = some ownInitializer := by decide +kernel
    rw [sourceText, hread]
  refine ⟨hbad, hprint, ?_, ?_, ?_, ?_⟩
  · exact (static_gate.1 0 (.still 0) [.run "var x = \"a\";"] ownInitializer).1 (.inr hbad)
  · exact (static_gate.1 0 (.still 0) [] "print x;").2 rfl hprint
  · exact static_gate.2.1 0 (.still 0) ["var x = \"a\";"] ownInitializer ["print x;"] hbad
  · exact static_gate.2.2.2 (.ofString "a.lox") 0 (fun _ => .file ownInitializer.toUTF8) "" _
      ownInitializer htext nofun

end Command

end LoxLang
