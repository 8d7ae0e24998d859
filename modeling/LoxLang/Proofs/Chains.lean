import LoxLang.Proofs.ForLoops

/-!
# The links between scopes and between classes

Values, functions, scopes and classes refer to each other in circles. Two links do not: from a scope
to the one around it, and from a class to its superclass. They lead to something older, and they
never change (`Store.Ordered`, `Store.Grows`). So the way out of every scope is finite and ends in
the globals, and the way up from every class is finite. Looking up and assigning a name, describing
a scope and finding a method walk along these ways (`Store.Grounded`, `Store.Descends`).

A machine with such links is run beside itself, and the runs that go in step (`inStep_walks`) keep
them, whatever the tree is and however the run ends. `chains_founded` says it of sessions.
-/

namespace LoxLang

/-! ## Ways along links -/

/-- The list follows the links from `a` on, up to where there is none. -/
inductive Trail {α : Type} (next : α → Option α) : α → List α → Prop where
  | last {a : α} : next a = none → Trail next a [a]
  | step {a b : α} {bs : List α} : next a = some b → Trail next b bs → Trail next a (a :: bs)

namespace Store

variable {s : Store} {g r : ScopeRef} {c : ClassRef}

/-- The superclass of a class in the store. -/
def superclass? (s : Store) (c : ClassRef) : Option ClassRef :=
  (s.class? c).bind Class.superclass

/-- The method that the class itself has. -/
def ownMethod? (s : Store) (name : Name) (c : ClassRef) : Option FunctionRef :=
  (s.class? c).bind (·.methods.find? name)

/-- The way out of the scope is finite and ends in the globals. A name is looked up in, and assigned
to, the first scope along it that binds the name, and the scope is as deep as the way is long. -/
def Grounded (s : Store) (globals r : ScopeRef) : Prop :=
  ∃ rs, Trail s.enclosing? r rs ∧ rs.getLast? = some globals ∧
    (∀ name, s.lookup? r name = rs.findSome? (s.bound? · name)) ∧
    (∀ name, s.holder? r name = rs.find? fun q => (s.bound? q name).isSome) ∧
    s.depth r + 1 = rs.length

/-- The way up from the class is finite. A method is the first one along it. -/
def Descends (s : Store) (c : ClassRef) : Prop :=
  ∃ cs, Trail s.superclass? c cs ∧ ∀ name, s.findMethod? c name = cs.findSome? (s.ownMethod? name)

/-- The chain of a scope is the way along its links, and it ends at the globals. -/
theorem Ordered.trail_chain (h : s.Ordered g) (hr : r.index < s.scopes.size) :
    Trail s.enclosing? r (s.chain r) ∧ (s.chain r).getLast? = some g := by
  fun_induction chain s r with
  | case1 r e he hlt ih =>
    obtain ⟨htrail, hlast⟩ := ih (Nat.lt_trans hlt hr)
    exact ⟨.step he htrail, by rw [List.getLast?_cons, hlast]; rfl⟩
  | case2 r e he hlt =>
    have hne : r ≠ g := by
      rintro rfl
      cases h.root.symm.trans he
    obtain ⟨e', he', hlt'⟩ := h.links hr hne
    cases he.symm.trans he'
    exact absurd hlt' hlt
  | case3 r he =>
    refine ⟨.last he, congrArg some ?_⟩
    by_contra hne
    obtain ⟨e, he', -⟩ := h.links hr hne
    cases he.symm.trans he'

theorem Ordered.grounded (h : s.Ordered g) (hr : r.index < s.scopes.size) : s.Grounded g r := by
  obtain ⟨htrail, hlast⟩ := h.trail_chain hr
  refine ⟨s.chain r, htrail, hlast, fun _ => rfl, fun _ => rfl, ?_⟩
  have hne : s.chain r ≠ [] := by
    intro hnil
    rw [hnil] at hlast
    cases hlast
  exact Nat.sub_add_cancel (List.length_pos_iff.2 hne)

/-- The way from a class to its superclasses ends. -/
theorem Ordered.descends (h : s.Ordered g) (c : ClassRef) : s.Descends c := by
  cases hk : s.class? c with
  | none =>
    refine ⟨[c], .last (by rw [superclass?, hk]; rfl), fun name => ?_⟩
    rw [findMethod?, hk, List.findSome?_singleton, ownMethod?, hk]
    rfl
  | some k =>
    have hown (name : Name) : s.ownMethod? name c = k.methods.find? name := by
      rw [ownMethod?, hk]
      rfl
    cases hp : k.superclass with
    | none =>
      refine ⟨[c], .last (by rw [superclass?, hk]; exact hp), fun name => ?_⟩
      rw [findMethod?, hk, List.findSome?_singleton, hown]
      dsimp only
      rw [hp]
      split <;> simp_all
    | some p =>
      have hlt := h.superclasses hk hp
      obtain ⟨cs, htrail, hfind⟩ := h.descends p
      refine ⟨c :: cs, .step (by rw [superclass?, hk]; exact hp) htrail, fun name => ?_⟩
      rw [findMethod?, hk, List.findSome?_cons, hown, ← hfind]
      dsimp only
      rw [hp]
      cases k.methods.find? name with
      | some method => rfl
      | none => simp [hlt]
termination_by c.index

/-- What the value refers to is there. -/
def Knows (s : Store) : Value → Prop
  | .function r => (s.function? r).isSome
  | .cls c => c.index < s.classes.size
  | _ => True

end Store

/-! ## Machines -/

namespace Machine

/-- The way out of every scope ends in the globals. The scope that is current is there, and so are
those that the functions were made in. The way up from every class is finite, and the functions and
classes that are bound to names and held by fields are there. -/
structure Founded (m : Machine) : Prop where
  scopes : ∀ r : ScopeRef, r.index < m.store.scopes.size → m.store.Grounded m.globals r
  current : m.current.index < m.store.scopes.size
  closures : ∀ r f, m.store.function? r = some f → f.closure.index < m.store.scopes.size
  classes : ∀ c, m.store.Descends c
  values : ∀ r name v, m.store.bound? r name = some v → m.store.Knows v
  fields : ∀ o k name v, m.store.object? o = some k → k.fields.find? name = some v →
    m.store.Knows v

/-- All that the machine refers to is there, and its links lead to what is older. -/
structure Steady (m : Machine) : Prop where
  closed : m.Closed
  ordered : m.Ordered

/-- A steady machine stays steady. It has the same globals, and no link of it changes. -/
def Steadies (m m' : Machine) : Prop :=
  m.Steady → m'.Steady ∧ m'.globals = m.globals ∧ m.store.Grows m'.store

variable {m m' m'' : Machine}

/-- A steady machine is founded. -/
theorem Steady.founded (h : m.Steady) : m.Founded where
  scopes _ hr := h.ordered.store.grounded hr
  current := h.closed.current
  closures _ _ hf := h.closed.store.closures hf
  classes := h.ordered.store.descends
  values r name v hv := by
    cases v with
    | function q => exact h.closed.store.values hv
    | cls c => exact h.ordered.values hv
    | _ => trivial
  fields o k name v hk hv := by
    cases v with
    | function q => exact h.closed.store.fields hk hv
    | cls c => exact h.ordered.fields hk hv
    | _ => trivial

theorem Steadies.refl (m : Machine) : m.Steadies m :=
  fun h => ⟨h, rfl, .refl _⟩

theorem Steadies.trans (h : m.Steadies m') (h' : m'.Steadies m'') : m.Steadies m'' := by
  intro hm
  obtain ⟨hm', hglobals, hgrows⟩ := h hm
  obtain ⟨hm'', hglobals', hgrows'⟩ := h' hm'
  exact ⟨hm'', hglobals'.trans hglobals, hgrows.trans hgrows'⟩

/-- The scopes and what they hold are the same. -/
theorem Steadies.of_store (hstore : m'.store = m.store) (hglobals : m'.globals = m.globals)
    (hcurrent : m'.current = m.current) : m.Steadies m' := by
  obtain ⟨store, globals, current⟩ := m'
  cases hstore
  cases hglobals
  cases hcurrent
  exact fun h => ⟨⟨⟨h.closed.1, h.closed.2, h.closed.3⟩, ⟨h.ordered.1, h.ordered.2, h.ordered.3⟩⟩,
    rfl, .refl _⟩

theorem LeftBy.current_lt {strands : Bool} {fault : Prop} (h : LeftBy strands fault m m')
    (hm : m.current.index < m.store.scopes.size) (hg : m.store.Grows m'.store) :
    m'.current.index < m'.store.scopes.size := by
  obtain hback | ⟨-, -, hin⟩ := h
  · rw [hback.current]
    exact Nat.lt_of_lt_of_le hm hg.scopes
  · by_contra hge
    cases (Store.enclosing?_eq_none_of_size_le (Nat.not_lt.1 hge)).symm.trans hin.enclosing

/-- The globals of a new machine are its only scope. -/
theorem steady_initial (detail : Nat) (clock : Clock) : (initial detail clock).Steady := by
  have hstore : (initial detail clock).store =
      (Store.addScope {} none).2.define ⟨0⟩ Native.clock.name (.native .clock) := rfl
  refine ⟨closed_initial detail clock, ⟨⟨rfl, fun {r} hr hne => ?_, fun {c _ _} hk => ?_⟩, ?_,
    fun {o _ _ _} ho => ?_⟩⟩
  · obtain ⟨_ | n⟩ := r
    · exact absurd rfl hne
    · exact absurd (Nat.lt_of_succ_lt_succ hr) (Nat.not_lt_zero n)
  · cases (Array.getElem?_empty (i := c.index)).symm.trans hk
  · intro r name c hv
    rw [hstore, Store.bound?_define _ Nat.one_pos, Store.bound?_addScope,
      Store.bound?_eq_none_of_size_le (Nat.zero_le _)] at hv
    split at hv <;> cases hv
  · cases (Array.getElem?_empty (i := o.index)).symm.trans ho

end Machine

/-! ## Walks -/

/-- From a steady machine the computation keeps the links, however it ends, and what it gives is
there. -/
def Exec.Steadies {α : Type} (m : Machine) (x : Exec α) (value : α → Value) : Prop :=
  Ends x m (fun a m' => m.Steadies m' ∧ m'.store.Knows (value a)) fun _ m' => m.Steadies m'

open Twins

section Walks

variable {m : Machine} {α : Type} {x : Exec α}

theorem Twins.Fits.knows {q : Twins (Tree.renumbering True)} {v : Value} (h : q.Fits v) :
    q.left.store.Knows v := by
  cases v with
  | function r => exact Has.isSome h
  | cls c => exact h trivial
  | _ => trivial

theorem fits_of_knows (hm : m.Closed) {v : Value} (h : m.store.Knows v) :
    (same m : Twins (Tree.renumbering True)).Fits v := by
  cases v with
  | function r => exact has_self hm h false
  | cls c => exact fun _ => h
  | _ => trivial

/-- A run beside itself keeps the links. -/
theorem steadies_of_runs {strands : Bool} {value : α → Value} (hm : m.Steady)
    (hx : Exec.Leaves strands x) {Q : Twins (Tree.renumbering True) → α → α → Prop}
    (h : Runs x x (same m) Q) (hQ : ∀ {q a a'}, Q q a a' → q.Fits (value a)) :
    Exec.Steadies m x value := by
  have hsteady {q : Twins (Tree.renumbering True)} (hg : (same m).Grows q) (hq : q.Paired)
      {fault : Prop} (hleft : m.LeftBy strands fault q.left) : m.Steadies q.left := by
    have hlt : q.left.current.index < q.left.store.scopes.size :=
      hleft.current_lt hm.closed.current hg.left
    have hglobals := Nat.lt_of_lt_of_le hq.globals_lt hq.old_le
    exact fun _ => ⟨⟨⟨hq.closed, hglobals, hlt⟩, hq.ordered trivial, fun hv => hq.values hv trivial,
      fun hk hv => hq.fields hk hv trivial⟩, hleft.globals, hg.left⟩
  cases h with
  | @result q a a' left right grows paired holds =>
    have hleft : m.LeftBy strands False q.left := .inl ((hx m).ok left)
    exact Ends.of_ok left ⟨hsteady grows paired hleft, (hQ holds).knows⟩
  | stop left right like grows paired =>
    exact Ends.of_error left (hsteady grows paired ((hx m).error left))

/-- Each walk keeps the links, over any tree and however it ends. -/
theorem steadies_walks (hm : m.Steady) (rounds room : Nat) :
    (∀ t, Exec.Steadies m (Exec.evaluate rounds room t) id) ∧
    (∀ t, Exec.Steadies m (Exec.execute rounds room t) Completion.value) ∧
    (∀ t (r : ScopeRef), r.index < m.store.scopes.size →
      Exec.Steadies m (Exec.executeBlock rounds room t r) Completion.value) ∧
    ∀ callee arguments paren, m.store.Knows callee → (∀ v ∈ arguments, m.store.Knows v) →
      Exec.Steadies m (Exec.call rounds room callee arguments paren) id := by
  obtain ⟨levaluate, lexecute, lblock, lcall⟩ := Exec.leaves_walks rounds room
  obtain ⟨hevaluate, hexecute, hblock, hcall⟩ := inStep_walks (Tree.renumbering True) rounds room
  have hpaired : (same m : Twins (Tree.renumbering True)).Paired :=
    paired_self hm.closed fun _ => hm.ordered
  have hreach {r : ScopeRef} (hr : r.index < m.store.scopes.size) :
      (same m : Twins (Tree.renumbering True)).Reaches r r ⟨id, []⟩ :=
    reaches_same hr rfl fun _ => rfl
  have hself (t : Tree) := Tree.renumberedIn_self (π := ⟨id, []⟩) rfl t
  refine ⟨fun t => ?_, fun t => ?_, fun t r hr => ?_, fun callee arguments paren hc ha => ?_⟩
  · exact steadies_of_runs hm (levaluate t) (hevaluate hpaired (hreach hm.closed.current) (hself t))
      fun hq => hq.2.2
  · exact steadies_of_runs hm (lexecute t) (hexecute hpaired (hreach hm.closed.current) (hself t))
      fun hq => hq.2.2
  · exact steadies_of_runs hm (lblock t r) (hblock hpaired (hreach hr) (hself t)) fun hq => hq.2.2
  · exact steadies_of_runs hm (lcall callee arguments paren)
      (hcall hpaired (fits_of_knows hm.closed hc) (fun v hv => fits_of_knows hm.closed (ha v hv))
        (Tree.words_self paren)) fun hq => hq.2.2

end Walks

/-! ## Sessions -/

namespace Session

/-- The step keeps the links of the machine, however it ends. -/
def Steadies {α : Type} (x : Step α) : Prop :=
  ∀ s, Ends x s (fun _ s' => s.machine.Steadies s'.machine) fun _ s' =>
    s.machine.Steadies s'.machine

theorem steadies_modify {g : Session → Session}
    (h : ∀ s : Session, s.machine.Steadies (g s).machine) : Steadies (modify g) :=
  fun s => ends_modify (h s)

theorem Steadies.bind {α β : Type} {x : Step α} {f : α → Step β} (hx : Steadies x)
    (hf : ∀ a, Steadies (f a)) : Steadies (x >>= f) :=
  fun s => Ends.bind (hx s) fun a s' hs =>
    Ends.imp (hf a s') (fun _ _ h => hs.trans h) fun _ _ h => hs.trans h

/-- A statement keeps the machine steady. -/
theorem steadies_onMachine (t : Tree) : Steadies (onMachine t) := by
  intro s
  unfold Ends onMachine
  by_cases hm : s.machine.Steady
  · have hwalk := (steadies_walks hm maxRounds Tree.maxDepth).2.1 t
    cases hx : Exec.execute maxRounds Tree.maxDepth t s.machine with
    | ok completion m => exact (hwalk.ok hx).1
    | error stop m => exact hwalk.error hx
  · split
    · exact fun h => absurd h hm
    · exact fun h => absurd h hm

theorem steadies_note (m : Machine) (line : String) : m.Steadies (m.note 1 line) := by
  unfold Machine.note
  split
  · exact .of_store rfl rfl rfl
  · exact .refl m

/-- The rules of sessions that keep the machine steady. -/
theorem judgement_steadies : Judgement fun _ x => Steadies x where
  pure _ s := Ends.pure (.refl s.machine)
  throw _ s := Ends.throw (.refl s.machine)
  bind := .bind
  look hf _ s := hf s s
  note line s := by
    have hnote := note_eq s line
    split at hnote
    · exact Ends.of_error hnote (.refl _)
    · exact Ends.of_ok hnote (steadies_note s.machine line)
  modify hg s := by
    obtain ⟨serial, hm⟩ := hg.machine s
    exact ends_modify (hm ▸ .of_store rfl rfl rfl)
  onMachine t _ hf _ := (steadies_onMachine t).bind hf

/-- What can be done in a session. -/
inductive Turn where
  | launch (run : Launch)
  | reset
  | close
  | takeOutput

/-- A turn, as a step of the session. -/
def Turn.step : Turn → Step Unit
  | .launch run => run.step
  | .reset => Session.reset
  | .close => Session.close
  | .takeOutput => do let _ ← Session.takeOutput

/-- The session after some turns, each of which leaves a session however it ends. -/
def afterTurns (s : Session) (turns : List Turn) : Session :=
  turns.foldl (fun s turn => stateAfter turn.step s) s

theorem Turn.steadies (turn : Turn) : Steadies turn.step := by
  cases turn with
  | launch run => exact judgement_steadies.step run
  | reset => exact steadies_modify fun _ => .refl _
  | close => exact steadies_modify fun _ => .of_store rfl rfl rfl
  | takeOutput => exact fun _ => Ends.of_ok rfl (.of_store rfl rfl rfl)

/-- Turns keep the machine steady, however many. -/
theorem steadies_afterTurns (turns : List Turn) :
    ∀ s : Session, s.machine.Steadies (s.afterTurns turns).machine := by
  induction turns with
  | nil => exact fun s => .refl s.machine
  | cons turn turns ih =>
    intro s
    have hturn : s.machine.Steadies (stateAfter turn.step s).machine :=
      Ends.stateAfter (I := fun s' : Session => s.machine.Steadies s'.machine) (turn.steadies s)
    exact hturn.trans (ih _)

theorem steady_afterTurns (detail : Nat) (clock : Clock) (blocked : Bool) (turns : List Turn) :
    ((startTracing detail clock blocked).afterTurns turns).machine.Steady := by
  have hstart : (Machine.initial detail clock).Steadies
      (startTracing detail clock blocked).machine := .of_store rfl rfl rfl
  exact (steadies_afterTurns turns _ (hstart (Machine.steady_initial detail clock)).1).1

end Session

/-- The way out of every scope ends in the globals and the way up from every class ends, whatever is
done in a session. No link ever changes, and no walk over any tree changes one. -/
theorem chains_founded :
    (∀ (detail : Nat) (clock : Clock) (blocked : Bool) (before later : List Session.Turn),
      let s := (Session.startTracing detail clock blocked).afterTurns before
      let s' := s.afterTurns later
      s.machine.Steady ∧ s.machine.Founded ∧ s'.machine.globals = s.machine.globals ∧
        s.machine.store.Grows s'.machine.store) ∧
    ∀ m : Machine, m.Steady → m.Founded ∧ ∀ rounds room : Nat,
      (∀ t, Exec.Steadies m (Exec.evaluate rounds room t) id) ∧
      (∀ t, Exec.Steadies m (Exec.execute rounds room t) Completion.value) ∧
      (∀ t (r : ScopeRef), r.index < m.store.scopes.size →
        Exec.Steadies m (Exec.executeBlock rounds room t r) Completion.value) ∧
      ∀ callee arguments paren, m.store.Knows callee → (∀ v ∈ arguments, m.store.Knows v) →
        Exec.Steadies m (Exec.call rounds room callee arguments paren) id := by
  refine ⟨fun detail clock blocked before later => ?_, fun m hm => ⟨hm.founded, ?_⟩⟩
  · have hs := Session.steady_afterTurns detail clock blocked before
    exact ⟨hs, hs.founded, (Session.steadies_afterTurns later _ hs).2⟩
  · exact steadies_walks hm

/-- A class is declared again, as a subclass of a subclass of its own. -/
def redeclaredClass : Session :=
  (Session.startTracing 0 (.still 0) false).afterTurns [.launch (.source "class A {} class B < A {}"),
    .launch (.source "class A < B {}")]

theorem chains_founded_redeclared :
    redeclaredClass.machine.Founded ∧
      [2, 1, 0].map (fun c => (redeclaredClass.machine.store.className ⟨c⟩,
        redeclaredClass.machine.store.superclass? ⟨c⟩)) =
        [("A", some ⟨1⟩), ("B", some ⟨0⟩), ("A", none)] :=
  ⟨(chains_founded.2 _ (chains_founded.1 0 (.still 0) false _ []).1).1, by decide +kernel⟩

end LoxLang
