import LoxLang.Proofs.Conduct

/-!
# Sessions and their reports

A session starts with a lawful machine, and whatever it runs it is left with one, which was lawful
at each visit too (`Attested`). What a run of a source reports was found in the source by the
scanner, the parser or the resolver (`FoundIn`), or is a runtime error at the line of a token of the
source, an overflow apart (`carries_run`).
-/

namespace LoxLang

theorem Machine.lawful_initial (P : Token → Prop) (detail : Nat) (clock : Clock) :
    (Machine.initial detail clock).Lawful P := by
  have hfree := Store.free_addScope (s := {}) none
  have ho : (({} : Store).addScope none).2.Onward (Machine.initial detail clock).store :=
    Store.onward_define (by decide) _ _
  refine ⟨ho.free hfree, fun {g _} hf => ?_, fun {c _} hk => ?_⟩
  · cases (Array.getElem?_empty (i := g.index)).symm.trans hf
  · cases (Array.getElem?_empty (i := c.index)).symm.trans hk

/-- The machine of the session is lawful, and was so at each visit. -/
structure Observation.Attested (P : Token → Prop) (o : Observation) : Prop where
  lawful : o.session.machine.Lawful P
  visits : ∀ v ∈ o.visits, v.Attested P o.session.machine.store

/-- The diagnostic is among those since the last reset, or among those that were ever reported. -/
def Reporter.Has (r : Reporter) (d : Diagnostic) : Prop :=
  d ∈ r.log ∨ d ∈ r.written

/-- All that is newly reported is of the given kind. -/
def Reporter.Adds (D : Diagnostic → Prop) (r r' : Reporter) : Prop :=
  ∀ d, r'.Has d → r.Has d ∨ D d

/-- A runtime error at the line of a token with the property, or an overflow. -/
def Diagnostic.Cites (P : Token → Prop) (d : Diagnostic) : Prop :=
  ∃ error, d = .runtime error ∧ (Stop.runtime error).Cites P

/-- A stage before the execution has reported this about the source. -/
def FoundIn (source : String) (d : Diagnostic) : Prop :=
  d ∈ (scan source).problems ∨ ∃ parsed, parse? (scan source).finish = some parsed ∧
    (d ∈ parsed.problems ∨ parsed.problems = [] ∧ d ∈ (resolve parsed.statements).problems)

/-- What holds of a session after a part of it. -/
structure Observation.Proceeds (P : Token → Prop) (D : Diagnostic → Prop) (o o' : Observation) :
    Prop where
  attested : o'.Attested P
  reported : o.session.reporter.Adds D o'.session.reporter

/-- The session goes on, however the step ends. -/
abbrev Carries {α : Type} (P : Token → Prop) (D : Diagnostic → Prop) (x : Observe α)
    (o : Observation) : Prop :=
  Ends x o (fun _ o' => o.Proceeds P D o') fun _ o' => o.Proceeds P D o'

section Reporters

variable {D : Diagnostic → Prop} {r r' r'' : Reporter}

theorem Reporter.Adds.trans (h : r.Adds D r') (h' : r'.Adds D r'') : r.Adds D r'' :=
  fun d hd => (h' d hd).elim (h d) .inr

theorem Reporter.adds_reportAll {ds : List Diagnostic} (h : ∀ d ∈ ds, D d) :
    r.Adds D (r.reportAll ds) := by
  rw [reportAll_eq]
  rintro d (hd | hd)
  · exact (Array.mem_append.1 hd).imp .inl fun hd => h d (List.mem_toArray.1 hd)
  · exact (Array.mem_append.1 hd).imp .inr fun hd => h d (List.mem_toArray.1 hd)

end Reporters

section Sessions

variable {P : Token → Prop} {D : Diagnostic → Prop} {o o' o'' : Observation}

theorem Observation.Proceeds.trans (h : o.Proceeds P D o') (h' : o'.Proceeds P D o'') :
    o.Proceeds P D o'' :=
  ⟨h'.attested, h.reported.trans h'.reported⟩

theorem Carries.after {α : Type} {x : Observe α} (h : o.Proceeds P D o') (hx : Carries P D x o') :
    Ends x o' (fun _ o'' => o.Proceeds P D o'') fun _ o'' => o.Proceeds P D o'' :=
  Ends.imp hx (fun _ _ => h.trans) fun _ _ => h.trans

namespace Observation.Attested

theorem traced (h : o.Attested P) {m : Machine} (hm : Traced o.session.machine m) (r : Reporter) :
    ({ o with session := ⟨m, r⟩ } : Observation).Attested P := by
  obtain ⟨trace, -, rfl⟩ := hm
  exact ⟨h.lawful.of_onward (.refl _) rfl rfl rfl, h.visits⟩

theorem withWatched (h : o.Attested P) {w : Watched} (ho : o.watched.Onward P w) :
    (o.withWatched w).Attested P := by
  refine ⟨ho.lawful, fun v hv => ?_⟩
  rcases ho.visits v hv with hv | hv
  · exact (h.visits v hv).mono ho.store
  · exact hv

theorem start (detail : Nat) (clock : Clock) : (Observation.start detail clock).Attested P :=
  ⟨Machine.lawful_initial P detail clock, fun _ hv => absurd hv (Array.not_mem_empty _)⟩

theorem refl (h : o.Attested P) : o.Proceeds P D o :=
  ⟨h, fun _ => .inl⟩

end Observation.Attested

/-! ## Execution -/

theorem ends_note (s : Session) (line : String) :
    Ends (Session.note line) s
      (fun _ s' => Traced s.machine s'.machine ∧ s'.reporter = s.reporter) fun _ s' => s' = s := by
  unfold Ends
  rw [Session.note_eq]
  by_cases hb : (s.machine.trace.blocked && decide (1 ≤ s.machine.detail)) = true
  · rw [if_pos hb]
  · rw [if_neg hb]
    exact ⟨traced_note _ _, rfl⟩

/-- An error is traced and reported. -/
theorem carries_fail (h : o.Attested P) {error : RuntimeError} (he : D (.runtime error)) :
    Carries P D (Observe.plain (Session.fail error)) o := by
  have hfail : Ends (Session.fail error) o.session
      (fun _ s' => Traced o.session.machine s'.machine ∧ o.session.reporter.Adds D s'.reporter)
      fun _ s' => Traced o.session.machine s'.machine ∧ o.session.reporter.Adds D s'.reporter := by
    unfold Session.fail
    refine Ends.bind (Ends.imp (ends_note _ _) (fun _ _ h => h) ?_) ?_
    · rintro _ _ rfl
      exact ⟨.refl _, fun _ => .inl⟩
    · rintro _ s' ⟨hm, hr⟩
      refine ends_modify ⟨hm, ?_⟩
      rw [← hr]
      exact Reporter.adds_reportAll (List.forall_mem_singleton.2 he)
  unfold Carries Ends Observe.plain
  unfold Ends at hfail
  revert hfail
  cases Session.fail error o.session with
  | ok a s' | error e s' => exact fun hs => ⟨h.traced hs.1 _, hs.2⟩

/-- A statement of a session keeps what is attested, and an error cites a token. -/
theorem proceeds_onMachine (h : o.Attested P) {p : Position} {t : Tree} (ht : Proper P .statement t) :
    Ends (Observe.onMachine p t) o
      (fun result o' => o.Proceeds P D o' ∧ ∀ stop, result = .error stop → stop.Cites P)
      fun _ o' => o.Proceeds P D o' := by
  have hwatch := (conducts_walks P Session.maxRounds Tree.maxDepth).2.1 p [] o.watched ht h.lawful
  unfold Ends at hwatch
  unfold Ends Observe.onMachine
  revert hwatch
  cases Watch.execute Session.maxRounds Tree.maxDepth p [] t o.watched with
  | ok completion w =>
    rintro ⟨ho, -⟩
    exact ⟨⟨h.withWatched ho, fun _ => .inl⟩, by rintro _ ⟨⟩⟩
  | error stop w =>
    rintro ⟨ho, hstop⟩
    exact ⟨⟨h.withWatched ho, fun _ => .inl⟩, by rintro _ ⟨⟩; exact hstop⟩

/-- Statements of the right form are executed by a session. -/
theorem carries_execute (hD : ∀ d : Diagnostic, d.Cites P → D d) (n : Nat) {ts : List Tree}
    (hts : ∀ t ∈ ts, Proper P .statement t) :
    ∀ (i : Nat) {o : Observation}, o.Attested P → Carries P D (Observe.execute n i ts) o := by
  induction ts with
  | nil => exact fun i o h => Ends.pure h.refl
  | cons t ts ih =>
    obtain ⟨ht, hrest⟩ := List.forall_mem_cons.1 hts
    intro i o h
    unfold Observe.execute
    split
    · exact ih hrest (i + 1) h
    · refine Ends.bind (proceeds_onMachine h ht) ?_
      rintro result o' ⟨ho, hstops⟩
      cases result with
      | ok _ => exact (ih hrest (i + 1) ho.attested).after ho
      | error stop =>
        have hcites := hstops stop rfl
        cases stop with
        | runtime error => exact (carries_fail ho.attested (hD _ ⟨error, rfl, hcites⟩)).after ho
        | overflow =>
          refine (carries_fail ho.attested (hD _ ⟨_, rfl, fun hno => ?_⟩)).after ho
          exact absurd rfl hno
        | fault | unfinished => exact Ends.throw ho

/-! ## Runs -/

/-- A step that executes nothing, and what comes after it. -/
theorem Carries.plainBind {α β : Type} {step : Step α} {f : α → Observe β} (h : o.Attested P)
    {a : α} {m : Machine} {r : Reporter} (hx : step o.session = .ok a ⟨m, r⟩)
    (hm : Traced o.session.machine m) (hr : o.session.reporter.Adds D r)
    (hf : ∀ {o'}, o'.Attested P → o'.session = ⟨m, r⟩ → Carries P D (f a) o') :
    Carries P D (Observe.plain step >>= f) o := by
  have hplain : Observe.plain step o = .ok a { o with session := ⟨m, r⟩ } := by
    unfold Observe.plain
    rw [hx]
  exact Ends.step hplain ((hf (h.traced hm r) rfl).after ⟨h.traced hm r, hr⟩)

theorem Carries.look {β : Type} {f : Session → Observe β} (hf : Carries P D (f o.session) o) :
    Carries P D (Observe.plain get >>= f) o :=
  hf

/-- The run of a program that was read without an error. -/
theorem carries_executeUnlessError (h : o.Attested P) (hD : ∀ d : Diagnostic, d.Cites P → D d)
    {q : Program}
    (hq : o.session.reporter.hadError = false → ∀ t ∈ q.resolved, Proper P .statement t) :
    Carries P D (Observe.executeUnlessError q) o := by
  refine .look ?_
  split
  · exact Ends.pure h.refl
  · next hno =>
    let next : Observation := { o with programs := o.programs ++ [q] }
    have hnext : o.Proceeds P D next := ⟨⟨h.lawful, h.visits⟩, fun _ => .inl⟩
    have hexecute := carries_execute hD o.programs.length (hq (Bool.eq_false_iff.2 hno)) 0
      hnext.attested
    have hafter := hexecute.after hnext
    exact hafter

/-- A source is run in a session whose trace can be opened. -/
theorem carries_run (h : o.Attested P) (hblocked : o.session.machine.trace.blocked = false)
    (source : String) (hP : ∀ q, StandsFor source q → ∀ t ∈ q.resolved, t.TokensFrom P) :
    Carries P (fun d => FoundIn source d ∨ d.Cites P) (Observe.run source) o := by
  obtain ⟨⟨trees, problems⟩, hp, hstatic, hform⟩ := parse_scan source
  have hscan : ∀ d ∈ (scan source).problems.toList, d.isStatic = true :=
    fun d hd => scan_static source d (Array.mem_toList_iff.1 hd)
  obtain ⟨m, hread, hm⟩ := Session.read_ok hblocked hp
  refine .plainBind h hread hm ?_ fun {o₁} h₁ hs₁ => .look ?_
  · refine .trans (Reporter.adds_reportAll fun d hd => ?_) (Reporter.adds_reportAll fun d hd => ?_)
    · exact .inl (.inl (Array.mem_toList_iff.1 hd))
    · exact .inl (.inr ⟨_, hp, .inl hd⟩)
  split
  · exact Ends.pure h₁.refl
  · next hno =>
    rw [hs₁, Bool.not_eq_true] at hno
    obtain ⟨hno, rfl⟩ := Reporter.eq_nil_of_hadError hstatic hno
    obtain ⟨-, hnil⟩ := Reporter.eq_nil_of_hadError hscan hno
    obtain ⟨resolved, hres, hstatic', -⟩ := resolve_fine hp (hform rfl)
    have hblocked₁ : o₁.session.machine.trace.blocked = false := by
      rw [hs₁]
      exact hm.blocked.trans hblocked
    obtain ⟨m', hresolve, hm'⟩ := Session.resolveNames_ok hblocked₁ hres
    refine .plainBind h₁ hresolve hm' ?_ fun {o₂} h₂ hs₂ => ?_
    · exact Reporter.adds_reportAll fun d hd => .inl (.inr ⟨_, hp, .inr ⟨rfl, hd⟩⟩)
    refine carries_executeUnlessError h₂ (fun _ => .inr) fun hno' t ht => ?_
    rw [hs₂] at hno'
    have hq : StandsFor source ⟨trees, resolved⟩ :=
      ⟨Array.ext' hnil, hp, hres, (Reporter.eq_nil_of_hadError hstatic' hno').2⟩
    exact ⟨hq.wellFormed t ht, hP _ hq t ht⟩

/-- Whatever is done in a session, it stays attested. -/
theorem attested_after (acts : List Act) : ∀ {o : Observation}, InOrder o →
    o.Attested (fun _ => True) → (o.after acts).Attested fun _ => True := by
  induction acts with
  | nil => exact fun _ h => h
  | cons act acts ih =>
    intro o horder h
    have hkept : InOrder (stateAfter act.observed o) :=
      Ends.stateAfter (Ends.imp (horder.kept_observed act) (fun _ _ h => h.1) fun _ _ h => h.1)
    refine ih hkept (Ends.stateAfter ?_)
    cases act with
    | run source =>
      have hrun := carries_run h horder.unblocked source fun _ _ _ _ _ _ => trivial
      exact Ends.imp hrun (fun _ _ h => h.attested) fun _ _ h => h.attested
    | reset => exact h.traced (.refl _) _

end Sessions

end LoxLang
