import LoxLang.Proofs.AlikeSessions
import Mathlib.Data.List.Induction

/-!
# Tracing only observes

A machine can trace in more or less detail. Two machines that differ in nothing but their traces and
their details do the same, and what they trace is taken from the same notes: each note has a level,
and a machine writes those notes whose level its detail reaches (`Observes`). A malformed tree is
the exception where something is traced, since a line that is not traced is not made either. Each
step of the machine observes, and so do the four walks (`observes_walks`) and the runs of a session
(`observes_run`). In a session no malformed tree is ever met. So at any two details all that can be
seen of a session is the same, and the lines that are traced in less detail are among those that are
traced in more (`tracing_observes`).
-/

namespace LoxLang

/-! ## Notes -/

/-- A line that is traced from a level on. -/
structure Note where
  level : Nat
  line : String
  level_le : level ≤ 3

/-- The trace with those notes that the detail reaches. -/
def Trace.add (detail : Nat) (notes : List Note) (t : Trace) : Trace :=
  (notes.filter fun n => n.level ≤ detail).foldl (fun t n => t.write n.line) t

theorem Trace.add_append (detail : Nat) (notes notes' : List Note) (t : Trace) :
    t.add detail (notes ++ notes') = (t.add detail notes).add detail notes' := by
  unfold Trace.add
  rw [List.filter_append, List.foldl_append]

/-- A state with a trace in it, and computations on it that can meet a malformed tree. -/
class Traceable (ε σ : Type) where
  detail : σ → Nat
  trace : σ → Trace
  /-- The state with another detail and another trace. -/
  retrace : Nat → Trace → σ → σ
  /-- The computation was given up, and nothing is known of its state. -/
  gaveUp : ε → Prop
  detail_retrace : ∀ d t s, detail (retrace d t s) = d
  trace_retrace : ∀ d t s, trace (retrace d t s) = t
  retrace_self : ∀ s, retrace (detail s) (trace s) s = s

/-- The trace of the evaluator. -/
instance : Traceable Stop Machine where
  detail := Machine.detail
  trace := Machine.trace
  retrace d t m := { m with detail := d, trace := t }
  gaveUp e := ∃ fault, e = .fault fault
  detail_retrace _ _ _ := rfl
  trace_retrace _ _ _ := rfl
  retrace_self _ := rfl

/-- The trace of a session is that of its machine. -/
instance : Traceable Abort Session where
  detail s := s.machine.detail
  trace s := s.machine.trace
  retrace d t s := { s with machine := { s.machine with detail := d, trace := t } }
  gaveUp e := (∃ fault, e = .fault fault) ∨ e = .blockedTrace
  detail_retrace _ _ _ := rfl
  trace_retrace _ _ _ := rfl
  retrace_self _ := rfl

open Traceable

section Observes

variable {ε σ α β : Type} [Traceable ε σ] {d : Nat} {t : Trace}

/-- From `s` on, and from the same state with another detail and trace on, the same notes have been
taken, and the states are the same otherwise. -/
def Noted (ε : Type) [Traceable ε σ] (s : σ) (d : Nat) (t : Trace) (s₁ s₁' : σ) : Prop :=
  ∃ notes, detail ε s₁ = detail ε s ∧ trace ε s₁ = (trace ε s).add (detail ε s) notes ∧
    s₁' = retrace ε d (t.add d notes) s₁

/-- Two results of a computation, from `s` and from the same state with another detail and trace.
One of them alone is given up only where something is traced. -/
inductive Agree (s : σ) (d : Nat) (t : Trace) :
    EStateM.Result ε σ α → EStateM.Result ε σ α → Prop where
  | ok {a : α} {s₁ s₁' : σ} : Noted ε s d t s₁ s₁' → Agree s d t (.ok a s₁) (.ok a s₁')
  | error {e : ε} {s₁ s₁' : σ} : Noted ε s d t s₁ s₁' → Agree s d t (.error e s₁) (.error e s₁')
  | left {e : ε} {s₁ : σ} {r : EStateM.Result ε σ α} : gaveUp σ e → 0 < detail ε s →
    Agree s d t (.error e s₁) r
  | right {e : ε} {s₁' : σ} {r : EStateM.Result ε σ α} : gaveUp σ e → 0 < d →
    Agree s d t r (.error e s₁')

/-- The computation does not look at the trace, and takes the same notes at every detail. -/
def Observes (x : EStateM ε σ α) : Prop :=
  ∀ s d t, Agree s d t (x s) (x (retrace ε d t s))

theorem Noted.refl (s : σ) (d : Nat) (t : Trace) : Noted ε s d t s (retrace ε d t s) :=
  ⟨[], rfl, rfl, rfl⟩

variable {s s₁ s₁' : σ}

theorem Noted.trans {s₂ s₂' : σ} (h : Noted ε s d t s₁ s₁')
    (h' : Noted ε s₁ d (trace ε s₁') s₂ s₂') :
    Noted ε s d t s₂ s₂' := by
  obtain ⟨notes, hdetail, htrace, rfl⟩ := h
  obtain ⟨notes', hdetail', htrace', rfl⟩ := h'
  refine ⟨notes ++ notes', hdetail'.trans hdetail, ?_, ?_⟩
  · rw [htrace', htrace, hdetail, Trace.add_append]
  · rw [trace_retrace, Trace.add_append]

/-- The second state is the first one, with its own detail and trace. -/
theorem Noted.eq_retrace (h : Noted ε s d t s₁ s₁') : s₁' = retrace ε d (trace ε s₁') s₁ := by
  obtain ⟨notes, -, -, rfl⟩ := h
  rw [trace_retrace]

theorem Agree.trans (h : Noted ε s d t s₁ s₁') {r r' : EStateM.Result ε σ α}
    (hr : Agree s₁ d (trace ε s₁') r r') : Agree s d t r r' := by
  cases hr with
  | ok h' => exact .ok (h.trans h')
  | error h' => exact .error (h.trans h')
  | left he hd =>
    obtain ⟨-, hdetail, -⟩ := h
    exact .left he (hdetail ▸ hd)
  | right he hd => exact .right he hd

variable {x : EStateM ε σ α}

theorem Observes.agree (hx : Observes x) {s s₁ s₁' : σ} (h : Noted ε s d t s₁ s₁') :
    Agree s d t (x s₁) (x s₁') := by
  have hr := hx s₁ d (trace ε s₁')
  rw [← h.eq_retrace] at hr
  exact .trans h hr

theorem observes_pure (a : α) : Observes (pure a : EStateM ε σ α) :=
  fun s d t => .ok (.refl s d t)

theorem observes_throw (e : ε) : Observes (throw e : EStateM ε σ α) :=
  fun s d t => .error (.refl s d t)

/-- Two steps do not look at the trace if neither does. -/
theorem Observes.bind {f : α → EStateM ε σ β} (hx : Observes x) (hf : ∀ a, Observes (f a)) :
    Observes (x >>= f) := by
  intro s d t
  have h := hx s d t
  cases hs : x s with
  | ok a s₁ =>
    rw [bind_of_ok hs]
    rw [hs] at h
    cases hs' : x (retrace ε d t s) with
    | ok a' s₁' =>
      rw [bind_of_ok hs']
      rw [hs'] at h
      cases h with
      | ok h => exact (hf a).agree h
    | error e s₁' =>
      rw [bind_of_error hs']
      rw [hs'] at h
      cases h with
      | right he hd => exact .right he hd
  | error e s₁ =>
    rw [bind_of_error hs]
    rw [hs] at h
    cases hs' : x (retrace ε d t s) with
    | ok a' s₁' =>
      rw [hs'] at h
      cases h with
      | left he hd => exact .left he hd
    | error e' s₁' =>
      rw [bind_of_error hs']
      rw [hs'] at h
      cases h with
      | error h => exact .error h
      | left he hd => exact .left he hd
      | right he hd => exact .right he hd

/-- A look at the state, of which neither the detail nor the trace is used. -/
theorem Observes.look {f : σ → EStateM ε σ β} (hf : ∀ s, Observes (f s))
    (hsame : ∀ d t s, f (retrace ε d t s) = f s) : Observes (get >>= f) := by
  intro s d t
  have h := hf s s d t
  have hget (s : σ) : (get >>= f) s = f s s := rfl
  rw [hget, hget, hsame]
  exact h

/-- A result with another detail and another trace. -/
def Retraced (d : Nat) (t : Trace) : EStateM.Result ε σ α → EStateM.Result ε σ α
  | .ok a s => .ok a (retrace ε d t s)
  | .error e s => .error e (retrace ε d t s)

/-- A computation that leaves detail and trace alone. -/
theorem observes_of_commutes (h : ∀ s d t, x (retrace ε d t s) = Retraced d t (x s)) :
    Observes x := by
  intro s d t
  have hself := h s (detail ε s) (trace ε s)
  rw [retrace_self] at hself
  rw [h s d t]
  cases hs : x s with
  | ok a s₁ =>
    rw [hs, Retraced, EStateM.Result.ok.injEq] at hself
    refine .ok ⟨[], ?_, ?_, rfl⟩
    · rw [hself.2, detail_retrace]
    · rw [hself.2, trace_retrace]
      rfl
  | error e s₁ =>
    rw [hs, Retraced, EStateM.Result.error.injEq] at hself
    refine .error ⟨[], ?_, ?_, rfl⟩
    · rw [hself.2, detail_retrace]
    · rw [hself.2, trace_retrace]
      rfl

end Observes

/-! ## Steps of the machine -/

variable {level d : Nat}

namespace Exec

section Steps

variable {α : Type} {x : Exec α}

theorem observes_modify {g : Machine → Machine}
    (h : ∀ (m : Machine) d t, g { m with detail := d, trace := t } =
      { g m with detail := d, trace := t }) : Observes (modify g : Exec Unit) :=
  observes_of_commutes fun m d t => congrArg (EStateM.Result.ok ()) (h m d t)

/-- A note writes its line at its level, and does nothing below. -/
theorem note_eq (level : Nat) (line : Machine → Except Fault String) (m : Machine) :
    note level line m =
      if level ≤ m.detail then
        match line m with
        | .ok text => .ok () { m with trace := m.trace.write text }
        | .error fault => .error (.fault fault) m
      else .ok () m := by
  unfold note
  rw [bind_of_ok (show (get : Exec Machine) m = .ok m m from rfl)]
  split
  · next h =>
    cases line m with
    | ok text =>
      show EStateM.Result.ok () (m.note level text) = _
      rw [Machine.note, if_pos h]
    | error fault => rfl
  · rfl

/-- A note is written if the detail reaches it. -/
theorem note_ok (hlevel : level ≤ 3) {line : Machine → Except Fault String} {m : Machine}
    {text : String} (h : line m = .ok text) : note level line m =
      .ok () { m with trace := m.trace.add m.detail [⟨level, text, hlevel⟩] } := by
  rw [note_eq, h]
  by_cases hl : level ≤ m.detail
  · simp [Trace.add, hl]
  · simp [Trace.add, hl]

/-- A note whose line does not depend on the trace. -/
theorem observes_note (hlevel : 0 < level ∧ level ≤ 3) {line : Machine → Except Fault String}
    (hline : Untraced line) : Observes (note level line) := by
  intro m d t
  cases htext : line m with
  | ok text =>
    have htext' : line (retrace Stop d t m) = .ok text := (hline m d t).trans htext
    rw [note_ok hlevel.2 htext, note_ok hlevel.2 htext']
    exact .ok ⟨[⟨level, text, hlevel.2⟩], rfl, rfl, rfl⟩
  | error fault =>
    have hfault : line (retrace Stop d t m) = .error fault := (hline m d t).trans htext
    rw [note_eq, note_eq, htext, hfault]
    split
    · next hl => exact .left ⟨fault, rfl⟩ (Nat.lt_of_lt_of_le hlevel.1 hl)
    · split
      · next hl => exact .right ⟨fault, rfl⟩ (Nat.lt_of_lt_of_le hlevel.1 hl)
      · exact .ok (.refl m d t)

/-- A run in another scope does not look at the trace. -/
theorem observes_inScope (hx : Observes x) (r : ScopeRef) : Observes (inScope r x) := by
  intro m d t
  have h := hx { m with current := r } d t
  have hnoted {m₁ m₁' : Machine} (h : Noted Stop { m with current := r } d t m₁ m₁') :
      Noted Stop m d t { m₁ with current := m.current } { m₁' with current := m.current } := by
    obtain ⟨notes, hdetail, htrace, rfl⟩ := h
    exact ⟨notes, hdetail, htrace, rfl⟩
  have hretrace : { retrace Stop d t m with current := r } =
      retrace Stop d t { m with current := r } := rfl
  unfold inScope
  dsimp only
  rw [hretrace]
  generalize x { m with current := r } = result at h
  generalize x (retrace Stop d t { m with current := r }) = result' at h
  cases h with
  | ok h => exact .ok (hnoted h)
  | error h => exact .error (hnoted h)
  | left he hd => exact .left he hd
  | right he hd => exact .right he hd

/-- Nor does a run that can overflow. -/
theorem observes_overflowAt {slot : Tree} (hx : Observes x)
    (hraise : Observes (raise slot .stackOverflow : Exec α)) : Observes (overflowAt slot x) := by
  intro m d t
  have h := hx m d t
  unfold overflowAt
  generalize x m = result at h
  generalize x (retrace Stop d t m) = result' at h
  cases h with
  | ok h => exact .ok h
  | @error e _ _ h =>
    cases e with
    | overflow => exact hraise.agree h
    | _ => exact .error h
  | left he hd =>
    obtain ⟨fault, rfl⟩ := he
    exact .left ⟨fault, rfl⟩ hd
  | right he hd =>
    obtain ⟨fault, rfl⟩ := he
    exact .right ⟨fault, rfl⟩ hd

/-- The rules of walks that do not look at the trace. -/
theorem rules_observes : Rules fun _ _ x => Observes x where
  pure := observes_pure
  throw := observes_throw
  bind := .bind
  mono h _ := h
  look hf hsame := .look hf fun d t m => hsame m d t
  note hlevel hline := observes_note hlevel hline
  modify hg := observes_modify hg.commutes
  define _ _ := observes_modify fun _ _ _ => rfl
  defineIn _ _ _ := observes_modify fun _ _ _ => rfl
  addScope _ := observes_of_commutes fun _ _ _ => rfl
  addFunction _ := observes_of_commutes fun _ _ _ => rfl
  addObject _ := observes_of_commutes fun _ _ _ => rfl
  bindMethod _ _ := observes_of_commutes fun _ _ _ => rfl
  inScope := observes_inScope
  overflowAt := observes_overflowAt

theorem observes_lift (r : Except Fault α) : Observes (lift r) :=
  rules_observes.lift (b := false) r

theorem observes_define (name : Name) (value : Value) : Observes (define name value) :=
  rules_observes.define (b := false) name value

theorem observes_methodsOf : ∀ (ts : List Tree) (done : Bindings Name FunctionRef),
    Observes (methodsOf done ts)
  | [], _ => observes_pure _
  | _ :: ts, _ => by
    refine (observes_lift _).bind fun token => (observes_lift _).bind fun name => ?_
    refine .look (fun m => ?_) fun _ _ _ => rfl
    exact (rules_observes.addFunction (b := false) _).bind fun r => observes_methodsOf ts _

theorem observes_enterSuper (parent : Option ClassRef) : Observes (enterSuper parent) := by
  cases parent with
  | none => exact observes_pure ()
  | some c => exact observes_of_commutes fun _ _ _ => rfl

theorem observes_leaveSuper (parent : Option ClassRef) : Observes (leaveSuper parent) := by
  cases parent with
  | none => exact observes_pure ()
  | some c => exact observes_modify fun _ _ _ => rfl

theorem observes_declareClass {evaluate : Tree → Exec Value} (h : ∀ t, Observes (evaluate t))
    (slot parent methods : Tree) : Observes (declareClass evaluate slot parent methods) := by
  have hadd (c : Class) : Observes (addClass c) := observes_of_commutes fun _ _ _ => rfl
  refine (rules_observes.superclass (b := false) h parent).bind fun parent => ?_
  refine (observes_lift _).bind fun name => (observes_define _ _).bind fun _ => ?_
  refine (observes_enterSuper _).bind fun _ => (observes_lift _).bind fun items => ?_
  refine (observes_methodsOf _ _).bind fun made => (hadd _).bind fun c => ?_
  refine (observes_leaveSuper _).bind fun _ => (observes_define _ _).bind fun _ => ?_
  exact (observes_note (by decide) fun _ _ _ => rfl).bind fun _ => observes_pure _

end Steps

theorem judgement_observes : Judgement fun _ _ x => Observes x where
  toRules := rules_observes
  declareClass := observes_declareClass

theorem observes_walks (rounds room : Nat) :
    (∀ t, Observes (evaluate rounds room t)) ∧
    (∀ t, Observes (execute rounds room t)) ∧
    (∀ t r, Observes (executeBlock rounds room t r)) ∧
    ∀ v arguments paren, Observes (call rounds room v arguments paren) :=
  judgement_observes.walks rounds room

end Exec

/-! ## Runs -/

namespace Session

section Runs

variable {α β : Type}

theorem note_eq_add (m : Machine) (line : String) :
    m.note 1 line = { m with trace := m.trace.add m.detail [⟨1, line, by decide⟩] } := by
  unfold Machine.note
  by_cases h : 1 ≤ m.detail
  · simp [Trace.add, h]
  · simp [Trace.add, h]

theorem observes_note (line : String) : Observes (note line) := by
  intro s d t
  rw [note_eq, note_eq]
  split
  · next hb => exact .left (.inr rfl) (of_decide_eq_true (Bool.and_eq_true_iff.1 hb).2)
  · split
    · next hb => exact .right (.inr rfl) (of_decide_eq_true (Bool.and_eq_true_iff.1 hb).2)
    · refine .ok ⟨[⟨1, line, by decide⟩], ?_, ?_, ?_⟩
      all_goals
        simp only [note_eq_add]
        rfl

/-- Executing a statement on the machine, where a malformed tree gives up the step. -/
theorem observes_onMachine (t : Tree) {f : Except Stop Completion → Step β}
    (hf : ∀ result, Observes (f result))
    (hfault : ∀ fault s, f (.error (.fault fault)) s = .error (.fault fault) s) :
    Observes (onMachine t >>= f) := by
  intro s d trace
  have h := (Exec.observes_walks maxRounds Tree.maxDepth).2.1 t s.machine d trace
  have hnoted {m m' : Machine} (h : Noted Stop s.machine d trace m m') :
      Noted Abort s d trace ⟨m, s.reporter⟩ ⟨m', s.reporter⟩ := by
    obtain ⟨notes, hdetail, htrace, rfl⟩ := h
    exact ⟨notes, hdetail, htrace, rfl⟩
  generalize hx : Exec.execute maxRounds Tree.maxDepth t s.machine = result at h
  generalize hx' : Exec.execute maxRounds Tree.maxDepth t
    (retrace Abort d trace s).machine = result' at h
  cases h with
  | ok h =>
    rw [bind_of_ok (onMachine_of_ok hx), bind_of_ok (onMachine_of_ok hx')]
    exact (hf _).agree (hnoted h)
  | error h =>
    rw [bind_of_ok (onMachine_of_error hx), bind_of_ok (onMachine_of_error hx')]
    exact (hf _).agree (hnoted h)
  | left he hd =>
    obtain ⟨fault, rfl⟩ := he
    rw [bind_of_ok (onMachine_of_error hx), hfault]
    exact .left (.inl ⟨fault, rfl⟩) hd
  | right he hd =>
    obtain ⟨fault, rfl⟩ := he
    rw [bind_of_ok (onMachine_of_error hx'), hfault]
    exact .right (.inl ⟨fault, rfl⟩) hd

theorem judgement_observes : Judgement fun _ x => Observes x where
  pure := observes_pure
  throw := observes_throw
  bind := .bind
  look hf hsame := .look hf fun d t s => hsame s d t
  note := observes_note
  modify hg := observes_of_commutes fun s d t => congrArg (EStateM.Result.ok ()) (hg.commutes s d t)
  onMachine := observes_onMachine

theorem observes_run (source : String) : Observes (run source) :=
  judgement_observes.step (.source source)

end Runs

end Session

/-! ## Sessions -/

/-- The states that agreeing results leave, if neither computation was given up. -/
theorem Agree.noted {ε σ α : Type} [Traceable ε σ] {x : EStateM ε σ α} {s s₁ s₁' : σ} {t : Trace}
    (h : Agree s d t (x s₁) (x s₁')) (hx : ∀ e s₂, x s₁ = .error e s₂ → ¬gaveUp σ e)
    (hx' : ∀ e s₂, x s₁' = .error e s₂ → ¬gaveUp σ e) :
    Noted ε s d t (stateAfter x s₁) (stateAfter x s₁') := by
  unfold stateAfter
  generalize x s₁ = result at h hx
  generalize x s₁' = result' at h hx'
  cases h with
  | ok h => exact h
  | error h => exact h
  | left he => exact absurd he (hx _ _ rfl)
  | right he => exact absurd he (hx' _ _ rfl)

/-- The session stays in order whatever is done in it. -/
def Orderly (s : Session) : Prop :=
  ∃ o, InOrder o ∧ o.session = s

theorem orderly_after (detail : Nat) (clock : Clock) (acts : List Act) :
    Orderly ((Session.start detail clock).after acts) :=
  ⟨_, (InOrder.start detail clock).after acts, Observation.session_after acts _⟩

namespace Orderly

variable {s : Session}

theorem unblocked (h : Orderly s) : s.machine.trace.blocked = false := by
  obtain ⟨o, ho, rfl⟩ := h
  exact ho.unblocked

/-- Only a loop that has used up its rounds stops a run. -/
theorem ends_run (h : Orderly s) (source : String) :
    Ends (Session.run source) s (fun _ => Orderly) fun e s' => e = .unfinished ∧ Orderly s' := by
  obtain ⟨o, ho, rfl⟩ := h
  refine (Observe.erases_run source).ends (Ends.imp (ho.kept_run source) ?_ ?_)
  · exact fun _ o' h => ⟨o', h.1, rfl⟩
  · exact fun _ o' h => ⟨h.2, o', h.1, rfl⟩

theorem not_gaveUp (h : Orderly s) {source : String} (e : Abort) (s' : Session)
    (hrun : Session.run source s = .error e s') : ¬gaveUp Session e := by
  rw [((h.ends_run source).error hrun).1]
  rintro (⟨fault, he⟩ | he) <;> cases he

end Orderly

/-- Two sessions in which the same is done, at two details. -/
theorem noted_after (d d' : Nat) (clock : Clock) (acts : List Act) :
    Noted Abort (Session.start d clock) d' {} ((Session.start d clock).after acts)
      ((Session.start d' clock).after acts) := by
  induction acts using List.reverseRecOn with
  | nil => exact .refl _ d' {}
  | append_singleton acts act ih =>
    have hafter (s : Session) : s.after (acts ++ [act]) = stateAfter act.step (s.after acts) := by
      simp [Session.after]
    rw [hafter, hafter]
    cases act with
    | run source =>
      exact ((Session.observes_run source).agree ih).noted (orderly_after d clock acts).not_gaveUp
        (orderly_after d' clock acts).not_gaveUp
    | reset =>
      have hreset : Observes Session.reset := observes_of_commutes fun _ _ _ => rfl
      have hends (s : Session) (e : Abort) (s₂ : Session) (h : Session.reset s = .error e s₂) :
          ¬gaveUp Session e := by cases h
      exact (hreset.agree ih).noted (hends _) (hends _)

/-- The lines that a session has traced. -/
def Session.traced (s : Session) : List String :=
  (s.machine.trace.lines.getD #[]).toList

/-- The lines of a trace are the notes at its level. -/
theorem Trace.lines_add (d : Nat) (notes : List Note) {t : Trace}
    (h : t.isOpen = false → t.lines = none) :
    ((t.add d notes).lines.getD #[]).toList =
      (t.lines.getD #[]).toList ++ (notes.filter fun n => n.level ≤ d).map Note.line := by
  unfold Trace.add
  induction notes.filter (fun n => n.level ≤ d) generalizing t with
  | nil => simp
  | cons n ns ih =>
    have hbefore : (if t.isOpen then t.lines.getD #[] else #[]) = t.lines.getD #[] := by
      cases hopen : t.isOpen with
      | true => rfl
      | false =>
        rw [h hopen]
        rfl
    rw [List.foldl_cons, ih (t := t.write n.line) nofun]
    simp [Trace.write, hbefore]

/-- In less detail a part of the notes is written, in more than enough detail all of them. -/
theorem Noted.traced {d' : Nat} {clock : Clock} {s s' : Session}
    (h : Noted Abort (Session.start d clock) d' {} s s') :
    (d ≤ d' → s.traced.Sublist s'.traced) ∧ (3 ≤ d → 3 ≤ d' → s'.traced = s.traced) := by
  obtain ⟨notes, -, htrace, rfl⟩ := h
  have hlines : s.traced = (notes.filter fun n => n.level ≤ d).map Note.line := by
    have hs : s.machine.trace = Trace.add d notes {} := htrace
    rw [Session.traced, hs, Trace.lines_add d notes fun _ => rfl]
    rfl
  have hlines' : (retrace Abort d' (Trace.add d' notes {}) s).traced =
      (notes.filter fun n => n.level ≤ d').map Note.line := by
    change ((Trace.add d' notes {}).lines.getD #[]).toList = _
    rw [Trace.lines_add d' notes fun _ => rfl]
    rfl
  rw [hlines, hlines']
  constructor
  · intro hd
    refine List.Sublist.map _ (List.monotone_filter_right notes fun n hn => ?_)
    simp only [decide_eq_true_eq] at hn ⊢
    omega
  · intro hd hd'
    have hall {d : Nat} (hd : 3 ≤ d) : notes.filter (fun n => n.level ≤ d) = notes :=
      List.filter_eq_self.2 fun n _ => by simpa using Nat.le_trans n.level_le hd
    rw [hall hd, hall hd']

/-- Whatever is done in a session, at any two details all that can be seen of it is the same, and so
are its scopes, functions, classes and objects. The lines that are traced in less detail are some of
those that are traced in more, and from the third level on they are the same. -/
theorem tracing_observes (clock : Clock) (acts : List Act) (d d' : Nat) :
    let s := (Session.start d clock).after acts
    let s' := (Session.start d' clock).after acts
    s'.shown = s.shown ∧ s'.machine.store = s.machine.store ∧
      s'.machine.globals = s.machine.globals ∧ s'.machine.current = s.machine.current ∧
      (d ≤ d' → s.traced.Sublist s'.traced) ∧ (3 ≤ d → 3 ≤ d' → s'.traced = s.traced) := by
  intro s s'
  have h := noted_after d d' clock acts
  have hs' : s' = retrace Abort d' s'.machine.trace s := h.eq_retrace
  refine ⟨?_, ?_, ?_, ?_, h.traced⟩
  · rw [hs']
    rfl
  · rw [hs']
    rfl
  · rw [hs']
    rfl
  · rw [hs']
    rfl

/-- A function, a call and a condition. -/
def conditionalPrint : String :=
  "fun f(a) \x7b if (a) print a; \x7d f(\"x\");"

theorem tracing_observes_conditionalPrint :
    ((Session.start 1 (.still 0)).after [.run conditionalPrint]).traced.length = 3 ∧
    ((Session.start 3 (.still 0)).after [.run conditionalPrint]).traced.length = 6 ∧
    ((Session.start 1 (.still 0)).after [.run conditionalPrint]).traced.Sublist
      ((Session.start 3 (.still 0)).after [.run conditionalPrint]).traced :=
  ⟨by decide +kernel, by decide +kernel,
    (tracing_observes (.still 0) [.run conditionalPrint] 1 3).2.2.2.2.1 (by decide)⟩

end LoxLang
