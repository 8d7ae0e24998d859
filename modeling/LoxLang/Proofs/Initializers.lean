import LoxLang.Proofs.Attested

/-!
# Returns and initializers

A statement that returns has a `return` among its parts (`MayReturn`), because a call takes up what
its body returns. The resolver has seen to it that no part of a statement at the top of a program is
a `return`, and that a `return` of an initializer has no value. So no statement of a program
returns, and a statement of an initializer returns nothing but nil.

An initializer is bound to an object in a scope that binds `this`, and gives what `this` is bound to
there. Nothing has changed this in the meantime, wherever the bound initializer was kept. So each
call of it that comes to its end gives the object (`returns_contained`).
-/

namespace LoxLang

/-! ## Where returns come from -/

/-- The value may be returned by the statement: one of its parts is a `return`, and the value is nil
if this has no value. -/
def Tree.MayReturn (t : Tree) (v : Value) : Prop :=
  ∃ keyword value, t.Includes (.returnStmt keyword value) ∧ (value.isNull = true → v = .nil)

variable {t u : Tree} {v : Value} {ts : List Tree}

theorem Tree.MayReturn.of_part (h : u.MayReturn v) (hu : u ∈ t.parts) : t.MayReturn v := by
  obtain ⟨keyword, value, hin, hv⟩ := h
  exact ⟨keyword, value, .head hu hin, hv⟩

theorem Tree.not_mayReturn_scalar (s : Scalar) (v : Value) : ¬(Tree.scalar s).MayReturn v := by
  rintro ⟨keyword, value, hin, -⟩
  rcases hin.cases_head with h | ⟨u, hu, -⟩
  · cases h
  · cases hu

/-- An item of a block is a part of it, unless it is a text. -/
theorem Tree.MayReturn.of_item {items : List Tree} (h : u.MayReturn v)
    (hitems : t.asItems = .ok items) (hu : u ∈ items) : (Tree.block t).MayReturn v := by
  unfold asItems at hitems
  split at hitems
  · cases hitems
    exact h.of_part hu
  · cases hitems
    obtain ⟨c, -, rfl⟩ := List.mem_map.1 hu
    exact absurd h (not_mayReturn_scalar _ _)
  · cases hitems

namespace Exec

/-- Where the computation returns, the value has the property. -/
def Returning (F : Value → Prop) (x : Exec Completion) : Prop :=
  ∀ m, Ends x m (fun completion _ => ∀ v, completion = .returned v → F v) fun _ _ => True

section Returning

variable {F G : Value → Prop} {α : Type} {x : Exec Completion}

theorem returning_normal : Returning F (pure .normal) :=
  fun _ => Ends.pure (by rintro _ ⟨⟩)

theorem returning_returned (h : F v) : Returning F (pure (.returned v)) := by
  refine fun _ => Ends.pure ?_
  rintro _ ⟨⟩
  exact h

theorem returning_throw (e : Stop) : Returning F (throw e) :=
  fun _ => Ends.throw trivial

theorem Returning.imp (h : Returning F x) (hFG : ∀ v, F v → G v) : Returning G x :=
  fun m => Ends.imp (h m) (fun _ _ hv v hc => hFG v (hv v hc)) fun _ _ h => h

/-- Only the last step returns. -/
theorem Returning.after {y : Exec α} {f : α → Exec Completion} (hf : ∀ a, Returning F (f a)) :
    Returning F (y >>= f) := by
  refine fun m => Ends.bind (P := fun _ _ => True) ?_ fun a m' _ => hf a m'
  unfold Ends
  cases y m with
  | ok | error => trivial

/-- The last step comes after one that gives a result. -/
theorem Returning.lift {r : Except Fault α} {f : α → Exec Completion}
    (hf : ∀ a, r = .ok a → Returning F (f a)) : Returning F (lift r >>= f) := by
  cases r with
  | ok a => exact hf a rfl
  | error fault => exact returning_throw _

/-- A run in another scope returns the same. -/
theorem Returning.inScope (h : Returning F x) (r : ScopeRef) : Returning F (inScope r x) := by
  intro m
  have hx := h { m with current := r }
  unfold Ends at hx
  unfold Ends Exec.inScope
  revert hx
  dsimp only
  cases x { m with current := r } with
  | ok completion m' => exact id
  | error e m' => exact id

/-- A list of statements returns what one of them may return. -/
theorem returning_executeEach {execute : Tree → Exec Completion} {R : Tree → Value → Prop}
    (h : ∀ t ∈ ts, Returning (R t) (execute t)) :
    Returning (fun v => ∃ t ∈ ts, R t v) (executeEach execute ts) := by
  induction ts with
  | nil => exact returning_normal
  | cons t ts ih =>
    obtain ⟨ht, hrest⟩ := List.forall_mem_cons.1 h
    have hts : Returning (fun v => ∃ u ∈ t :: ts, R u v) (executeEach execute ts) := by
      refine (ih hrest).imp ?_
      rintro v ⟨u, hu, hv⟩
      exact ⟨u, List.mem_cons_of_mem t hu, hv⟩
    unfold executeEach
    split
    · exact hts
    · intro m
      refine Ends.bind (ht m) fun completion m' hv => ?_
      cases completion with
      | normal => exact hts m'
      | returned value => exact returning_returned ⟨t, List.mem_cons_self, hv value rfl⟩ m'

/-- A loop returns what its body returns. -/
theorem returning_repeatWhile {condition : Exec Value} (h : Returning F x) (rounds : Nat) :
    Returning F (repeatWhile condition x rounds) := by
  induction rounds with
  | zero => exact returning_throw _
  | succ rounds ih =>
    refine .after fun value => ?_
    split
    · intro m
      refine Ends.bind (h m) fun completion m' hv => ?_
      cases completion with
      | normal => exact ih m'
      | returned value => exact returning_returned (hv value rfl) m'
    · exact returning_normal

theorem returning_declareVar (slot : Tree) (value : Value) : Returning F (declareVar slot value) :=
  .after fun _ => .after fun _ => .after fun _ => returning_normal

theorem returning_declareFunction (declaration slot : Tree) :
    Returning F (declareFunction declaration slot) :=
  .after fun _ => .after fun _ => .after fun _ => .after fun _ => .after fun _ => returning_normal

theorem returning_declareClass (evaluate : Tree → Exec Value) (slot parent methods : Tree) :
    Returning F (declareClass evaluate slot parent methods) := by
  refine .after fun _ => .after fun _ => .after fun _ => .after fun _ => .after fun _ => ?_
  refine .after fun _ => .after fun _ => .after fun _ => .after fun _ => .after fun _ => ?_
  exact returning_normal

end Returning

section Walks

variable {rounds room : Nat}

/-- A statement returns what one of its `return` statements may return. -/
theorem returning_execute (hexecute : ∀ t, Returning t.MayReturn (execute rounds room t))
    (hblock : ∀ t r, Returning (Tree.block t).MayReturn (executeBlock rounds room t r)) (t : Tree) :
    Returning t.MayReturn (execute rounds (room + 1) t) := by
  unfold execute
  cases t with
  | exprStmt => exact .after fun _ => returning_normal
  | printStmt =>
    exact .after fun _ => .after fun _ => .after fun _ => .after fun _ => returning_normal
  | varDecl name initializer =>
    dsimp only
    split
    · exact returning_declareVar _ _
    · exact .after fun _ => returning_declareVar _ _
  | block statements => exact .after fun m => .after fun scope => hblock statements scope
  | ifElse condition thenBranch elseBranch =>
    refine .after fun value => .after fun _ => ?_
    split
    · exact (hexecute thenBranch).imp fun v hv => hv.of_part List.mem_cons_self
    · split
      · exact returning_normal
      · refine (hexecute elseBranch).imp fun v hv => hv.of_part ?_
        exact List.mem_cons_of_mem _ List.mem_cons_self
  | whileLoop condition body =>
    refine returning_repeatWhile ?_ rounds
    exact (hexecute body).imp fun v hv => hv.of_part List.mem_cons_self
  | funDecl => exact returning_declareFunction _ _
  | returnStmt keyword value =>
    dsimp only
    split
    · exact returning_returned ⟨keyword, value, .refl, fun _ => rfl⟩
    · next hno =>
      refine .after fun v => returning_returned ⟨keyword, value, .refl, fun hnull => ?_⟩
      exact absurd hnull hno
  | classDecl => exact returning_declareClass _ _ _ _
  | _ => exact returning_throw _

/-- A statement returns what one of its parts returns, on any machine. -/
theorem returning_walks (rounds room : Nat) :
    (∀ t, Returning t.MayReturn (execute rounds room t)) ∧
    ∀ t r, Returning (Tree.block t).MayReturn (executeBlock rounds room t r) := by
  induction room with
  | zero =>
    refine ⟨fun t => ?_, fun t r => ?_⟩
    · unfold execute
      exact returning_throw _
    · unfold executeBlock
      exact returning_throw _
  | succ room ih =>
    obtain ⟨hexecute, hblock⟩ := ih
    refine ⟨returning_execute hexecute hblock, fun t r => ?_⟩
    unfold executeBlock
    refine .inScope (.lift fun items hitems => ?_) r
    refine (returning_executeEach fun u _ => hexecute u).imp ?_
    rintro v ⟨u, hu, hv⟩
    exact hv.of_item hitems hu

end Walks

end Exec

/-! ## Returns of accepted programs -/

namespace Tree

/-- The statement never ends with a return, on any machine. -/
def NeverReturns (t : Tree) : Prop :=
  ∀ rounds room m v m', Exec.execute rounds room t m ≠ .ok (.returned v) m'

/-- The statement returns nothing but nil, on any machine. -/
def ReturnsNil (t : Tree) : Prop :=
  ∀ rounds room m v m', Exec.execute rounds room t m = .ok (.returned v) m' → v = .nil

/-- The second statement belongs to an initializer of a class that stands somewhere in the first
one. -/
def InInitializer (t u : Tree) : Prop :=
  ∃ name parent methods method item, t.Contains (.classDecl name parent (.list methods)) ∧
    method ∈ methods ∧ method.IsInitializer ∧ item ∈ method.inner ∧ item.Includes u

variable {t u : Tree}

theorem neverReturns_of_obeys (h : t.Obeys .none) : t.NeverReturns := by
  intro rounds room m v m' hx
  obtain ⟨keyword, value, hin, -⟩ := ((Exec.returning_walks rounds room).1 t m).ok hx v rfl
  exact (h _ hin).1 rfl

theorem returnsNil_of_obeys (h : t.Obeys .initializer) : t.ReturnsNil := by
  intro rounds room m v m' hx
  obtain ⟨keyword, value, hin, hv⟩ := ((Exec.returning_walks rounds room).1 t m).ok hx v rfl
  exact hv ((h _ hin).2 rfl)

theorem AllObey.returnsNil (h : t.AllObey) (hu : t.InInitializer u) : u.ReturnsNil := by
  obtain ⟨name, parent, methods, method, item, hclass, hmethod, hinit, hitem, hin⟩ := hu
  have hobeys : item.Obeys .initializer := h _ hclass method hmethod hinit item hitem
  exact returnsNil_of_obeys fun w hw => hobeys w (hin.trans hw)

end Tree

/-! ## Bound initializers -/

/-- The function is an initializer that is bound to the object. -/
def Machine.Initializes (m : Machine) (g : FunctionRef) (x : ObjectRef) : Prop :=
  ∃ f, m.store.function? g = some f ∧ f.declaration.IsInitializer ∧
    m.store.bound? f.closure (.ofText "this") = some (.object x)

/-- An initializer that is taken from a class gets bound to the object, stays bound to it while
something else is evaluated, and gives it whenever a call of it comes to an end. So an expression
that calls it has the object as its value, and so has a call of the class. -/
structure Machine.YieldsObjects (m : Machine) : Prop where
  method : ∀ {c : ClassRef} {line : Json} {x : ObjectRef} {v : Value} {m' : Machine},
    Exec.methodOf c (.ofText "init") line (.object x) m = .ok v m' →
    ∃ g, v = .function g ∧ m'.Initializes g x
  kept : ∀ {g : FunctionRef} {x : ObjectRef} {t : Tree} {v : Value} {m' : Machine}
    {rounds room : Nat}, m.Initializes g x → WellFormed .expression t →
    Exec.evaluate rounds room t m = .ok v m' → m'.Initializes g x
  call : ∀ {g : FunctionRef} {x : ObjectRef} {arguments : List Value} {paren : Token}
    {result : Value} {m' : Machine} {rounds room : Nat}, m.Initializes g x →
    Exec.call rounds room (.function g) arguments (.token paren) m = .ok result m' →
    result = .object x
  expression : ∀ {callee arguments : Tree} {paren : Token} {g : FunctionRef} {x : ObjectRef}
    {result : Value} {m₁ m' : Machine} {rounds room : Nat},
    WellFormed .expression (.call callee (.token paren) arguments) →
    Exec.evaluate rounds room callee m = .ok (.function g) m₁ → m₁.Initializes g x →
    Exec.evaluate rounds (room + 1) (.call callee (.token paren) arguments) m = .ok result m' →
    result = .object x
  construct : ∀ {c : ClassRef} {r : FunctionRef} {arguments : List Value} {paren : Token}
    {result : Value} {m' : Machine} {rounds room : Nat},
    m.store.findMethod? c (.ofText "init") = some r →
    Exec.call rounds (room + 1) (.cls c) arguments (.token paren) m = .ok result m' →
    ∃ g x m₁, m₁.Initializes g x ∧ result = .object x ∧
      Exec.call rounds room (.function g) arguments (.token paren) m₁ = .ok (.object x) m'

section Bound

variable {P : Token → Prop} {m m' : Machine} {f : Function} {α : Type} {room rounds : Nat}
  {g r : FunctionRef} {x : ObjectRef} {c : ClassRef} {paren : Token} {result : Value}

theorem Function.MethodNamed.isInitializer {s : String} (h : f.MethodNamed s)
    (hf : f.declaration.IsInitializer) : f.isInitializer = true := by
  obtain ⟨token, params, body, hd, hs, hflag⟩ := h
  obtain ⟨token', params', body', hd', hinit⟩ := hf
  cases hd.symm.trans hd'
  cases hs.symm.trans hinit
  exact hflag

theorem Function.MethodNamed.declares (h : f.MethodNamed "init") : f.declaration.IsInitializer := by
  obtain ⟨token, params, body, hd, hs, -⟩ := h
  exact ⟨token, params, body, hd, hs⟩

/-- The machine with an empty record. -/
def Machine.unwatched (m : Machine) : Watched :=
  ⟨m, #[], #[], #[], #[]⟩

/-- What the observed computation does, the computation of the machine does. -/
theorem Machine.Lawful.of_runs (h : m.Lawful P) {x : Watch α} {y : Exec α} (hruns : Watch.Runs x y)
    (hx : Conducts P x m.unwatched) {a : α} (hy : y m = .ok a m') :
    m.store.Onward m'.store ∧ m'.Lawful P := by
  have hends : Ends y m (fun _ m' => m.store.Onward m'.store ∧ m'.Lawful P) fun _ _ => True := by
    refine hruns.ends (s := m.unwatched) ?_
    exact Ends.imp (hx h) (fun _ _ h => ⟨h.1.store, h.1.lawful⟩) fun _ _ _ => trivial
  exact hends.ok hy

theorem Machine.Lawful.plain (h : m.Lawful P) {x : Exec α}
    (hx : Conducts P (Watch.plain x) m.unwatched) {a : α} (ha : x m = .ok a m') :
    m.store.Onward m'.store ∧ m'.Lawful P :=
  h.of_runs (Watch.runs_plain x) hx ha

theorem Machine.Lawful.evaluate (h : m.Lawful P) {t : Tree} (ht : Proper P .expression t)
    {v : Value} (hx : Exec.evaluate rounds room t m = .ok v m') :
    m.store.Onward m'.store ∧ m'.Lawful P :=
  h.of_runs ((Watch.runs_walks rounds room).1 ⟨0, []⟩ [] t)
    ((conducts_walks P rounds room).1 ⟨0, []⟩ [] _ ht) hx

theorem Machine.Initializes.onward (h : m.Initializes g x) (hm : m.Lawful P)
    (ho : m.store.Onward m'.store) : m'.Initializes g x := by
  obtain ⟨f, hf, hinit, hthis⟩ := h
  exact ⟨f, ho.grows.function hf, hinit, (ho.receiver (hm.function hf).closure).trans hthis⟩

theorem Machine.Lawful.exists_initializer (h : m.Lawful P)
    (hr : m.store.findMethod? c (.ofText "init") = some r) :
    ∃ f, m.store.function? r = some f ∧ f.MethodNamed "init" := by
  obtain ⟨_, _, hk, hfind⟩ := Store.exists_of_findMethod? hr
  exact h.cls hk hfind

theorem initializes_bindMethod (hf : m.store.function? r = some f) (hname : f.MethodNamed "init")
    (hx : Exec.bindMethod r (.object x) m = .ok g m') : m'.Initializes g x := by
  obtain ⟨g', m₁, hx', scope, -, hg, -, hentries⟩ := bindsTo_bindMethod hf (.object x)
  cases hx.symm.trans hx'
  exact ⟨_, hg, hname.declares, Store.bound?_of_entries hentries rfl⟩

/-- The call of an initializer gives its object. -/
theorem Machine.Lawful.call (h : m.Lawful P) (hg : m.Initializes g x) {arguments : List Value}
    (hp : P paren)
    (hx : Exec.call rounds room (.function g) arguments (.token paren) m = .ok result m') :
    result = .object x := by
  obtain ⟨f, hf, hinit, hthis⟩ := hg
  obtain ⟨name, hname⟩ := (h.function hf).method hthis
  cases room with
  | zero =>
    unfold Exec.call at hx
    cases hx
  | succ room =>
    unfold Exec.call at hx
    have hcited : (Tree.token paren).Cited P := ⟨paren, rfl, hp⟩
    have hwalk := goes_callFunction (conducts_walks P rounds room).2.2.1 (w := m.unwatched) hcited
      g arguments h
    have hends : Ends (Exec.callFunction (Exec.executeBlock rounds room) g arguments (.token paren))
        m (fun result _ => result = .object x) fun _ _ => True := by
      refine (Watch.runs_callFunction (Watch.runs_walks rounds room).2.2.1 _ _ _).ends
        (s := m.unwatched) ?_
      exact Ends.imp hwalk (fun _ _ h => h.2.2 f _ hf (hname.isInitializer hinit) hthis)
        fun _ _ _ => trivial
    exact hends.ok hx

/-- A method that is taken from a class is found there and bound. -/
theorem Exec.methodOf_eq_ok {name : Name} {line : Json} {this : Value}
    (hx : Exec.methodOf c name line this m = .ok v m') : ∃ r g, v = .function g ∧
      m.store.findMethod? c name = some r ∧ Exec.bindMethod r this m = .ok g m' := by
  rw [Exec.methodOf, bind_of_ok (show (get : Exec Machine) m = .ok m m from rfl)] at hx
  cases hr : m.store.findMethod? c name with
  | none =>
    rw [hr] at hx
    cases hx
  | some r =>
    rw [hr] at hx
    obtain ⟨g, m₁, hbind, hpure⟩ := bind_eq_ok.1 hx
    cases hpure
    exact ⟨r, g, rfl, rfl, hbind⟩

/-- The evaluation of arguments keeps the machine lawful. -/
theorem Machine.Lawful.evaluateEach (hts : ∀ t ∈ ts, Proper P .expression t) :
    ∀ {done values : List Value} {m : Machine}, m.Lawful P →
      Exec.evaluateEach (Exec.evaluate rounds room) done ts m = .ok values m' →
      m.store.Onward m'.store ∧ m'.Lawful P := by
  induction ts with
  | nil =>
    intro done values m h hx
    cases hx
    exact ⟨.refl _, h⟩
  | cons t ts ih =>
    intro done values m h hx
    obtain ⟨ht, hrest⟩ := List.forall_mem_cons.1 hts
    obtain ⟨v, m₁, hv, hx⟩ := bind_eq_ok.1 hx
    obtain ⟨ho, h₁⟩ := h.evaluate ht hv
    obtain ⟨ho', h'⟩ := ih hrest h₁ hx
    exact ⟨ho.trans ho', h'⟩

/-- A result under the check for overflow is the result without it. -/
theorem Exec.ok_of_overflowAt {slot : Tree} {x : Exec α} {a : α}
    (hx : Exec.overflowAt slot x m = .ok a m') : x m = .ok a m' := by
  unfold Exec.overflowAt at hx
  cases hrun : x m with
  | ok a' m₁ =>
    rw [hrun] at hx
    exact hx
  | error e m₁ =>
    rw [hrun] at hx
    cases e with
    | overflow =>
      have hraise : Exec.raise slot .stackOverflow m₁ = .ok a m' := hx
      revert hraise
      unfold Exec.raise
      cases slot.asToken? with
      | some t => rintro ⟨⟩
      | none => cases slot.isNull <;> rintro ⟨⟩
    | _ => cases hx

/-- An expression that calls an initializer evaluates the arguments before the call. -/
theorem Machine.Lawful.evaluate_call (h : m.Lawful P) {callee arguments : Tree} {m₁ : Machine}
    (ht : Proper P .expression (.call callee (.token paren) arguments))
    (hcallee : Exec.evaluate rounds room callee m = .ok (.function g) m₁) (hg : m₁.Initializes g x)
    (hx : Exec.evaluate rounds (room + 1) (.call callee (.token paren) arguments) m = .ok result m') :
    result = .object x := by
  have harguments : Proper P .arguments arguments := ht.child 2 rfl rfl
  have hparen : P paren := ht.tokens.child 1 rfl paren (List.mem_singleton.2 rfl)
  cases harguments.formed with
  | @arguments items =>
    unfold Exec.evaluate at hx
    obtain ⟨v, m₂, hv, hx⟩ := bind_eq_ok.1 hx
    cases hcallee.symm.trans hv
    obtain ⟨_, _, hitems, hx⟩ := bind_eq_ok.1 hx
    cases hitems
    obtain ⟨values, m₃, hvalues, hx⟩ := bind_eq_ok.1 hx
    have h₁ := (h.evaluate (ht.child 0 rfl rfl) hcallee).2
    obtain ⟨ho, h₃⟩ := Machine.Lawful.evaluateEach (harguments.items fun _ => rfl) h₁ hvalues
    exact h₃.call (hg.onward h₁ ho) hparen (Exec.ok_of_overflowAt hx)

/-- A class that has an initializer calls it on the new object. -/
theorem Machine.Lawful.call_class (h : m.Lawful P)
    (hr : m.store.findMethod? c (.ofText "init") = some r) {arguments : List Value} (hp : P paren)
    (hx : Exec.call rounds (room + 1) (.cls c) arguments (.token paren) m = .ok result m') :
    ∃ g x m₁, m₁.Initializes g x ∧ result = .object x ∧
      Exec.call rounds room (.function g) arguments (.token paren) m₁ = .ok (.object x) m' := by
  obtain ⟨f, hf, hname⟩ := h.exists_initializer hr
  have hcited : (Tree.token paren).Cited P := ⟨paren, rfl, hp⟩
  unfold Exec.call at hx
  dsimp only at hx
  rw [Exec.callClass, bind_of_ok (show (get : Exec Machine) m = .ok m m from rfl), hr] at hx
  obtain ⟨arity, m₁, harity, hx⟩ := bind_eq_ok.1 hx
  obtain ⟨ho₁, h₁⟩ := h.plain (conducts_classArity _) harity
  obtain ⟨_, m₂, hcheck, hx⟩ := bind_eq_ok.1 hx
  obtain ⟨ho₂, h₂⟩ := h₁.plain (conducts_checkArity hcited _ _) hcheck
  obtain ⟨x, m₃, hmade, hx⟩ := bind_eq_ok.1 hx
  obtain ⟨ho₃, h₃⟩ := h₂.plain (conducts_addObject _) hmade
  obtain ⟨g, m₄, hbind, hx⟩ := bind_eq_ok.1 hx
  have hf₃ := ((ho₁.trans ho₂).trans ho₃).grows.function hf
  obtain ⟨-, h₄⟩ := h₃.plain (conducts_plain_bindMethod hf₃ hname _) hbind
  obtain ⟨v, m₅, hcall, hx⟩ := bind_eq_ok.1 hx
  have hg := initializes_bindMethod hf₃ hname hbind
  obtain rfl := h₄.call hg hp hcall
  cases hx
  exact ⟨g, x, m₄, hg, rfl, hcall⟩

theorem Machine.Lawful.yieldsObjects (h : m.Lawful fun _ => True) : m.YieldsObjects where
  method hx := by
    obtain ⟨r, g, rfl, hr, hbind⟩ := Exec.methodOf_eq_ok hx
    obtain ⟨f, hf, hname⟩ := h.exists_initializer hr
    exact ⟨g, rfl, initializes_bindMethod hf hname hbind⟩
  kept hg ht hx := hg.onward h (h.evaluate ⟨ht, fun _ _ => trivial⟩ hx).1
  call hg hx := h.call hg trivial hx
  expression ht hcallee hg hx := h.evaluate_call ⟨ht, fun _ _ => trivial⟩ hcallee hg hx
  construct hr hx := h.call_class hr trivial hx

end Bound

/-! ## Sessions -/

namespace Observation

variable {P : Token → Prop}

/-- The states in which a session makes calls: those that it went through, and what becomes of them
while the parts of a call are evaluated. -/
inductive Meets (o : Observation) : Machine → Prop where
  | reached {m : Machine} (h : o.Reaches m) : Meets o m
  | evaluated {m m' : Machine} {t : Tree} {v : Value} {rounds room : Nat} (h : Meets o m)
      (ht : WellFormed .expression t) (hx : Exec.evaluate rounds room t m = .ok v m') : Meets o m'

variable {o : Observation} {m : Machine}

theorem Attested.lawful_of_reaches (h : o.Attested P) (hm : o.Reaches m) : m.Lawful P := by
  rcases hm with rfl | ⟨v, hv, rfl⟩
  · exact h.lawful
  · exact (h.visits v hv).lawful

theorem Attested.onward_of_reaches (h : o.Attested P) (hm : o.Reaches m) :
    m.store.Onward o.session.machine.store := by
  rcases hm with rfl | ⟨v, hv, rfl⟩
  · exact .refl _
  · exact (h.visits v hv).onward

/-- In all states where it exists an initializer is bound to the same object. -/
theorem Attested.initializes_of_reaches (h : o.Attested P) {m' : Machine} (hm : o.Reaches m)
    (hm' : o.Reaches m') {g : FunctionRef} {f : Function} {x : ObjectRef} (hg : m.Initializes g x)
    (hf : m'.store.function? g = some f) : m'.Initializes g x := by
  have ho := h.onward_of_reaches hm'
  obtain ⟨f', hf', hinit, hthis⟩ := hg.onward (h.lawful_of_reaches hm) (h.onward_of_reaches hm)
  cases hf'.symm.trans (ho.grows.function hf)
  have hclosure := ((h.lawful_of_reaches hm').function hf).closure
  exact ⟨f, hf, hinit, (ho.receiver hclosure).symm.trans hthis⟩

theorem Attested.lawful_of_meets (h : o.Attested fun _ => True) (hm : o.Meets m) :
    m.Lawful fun _ => True := by
  induction hm with
  | reached hm => exact h.lawful_of_reaches hm
  | evaluated _ ht hx ih => exact (ih.evaluate ⟨ht, fun _ _ => trivial⟩ hx).2

/-- An initializer is bound to the object that its scope was opened for. -/
theorem initializes_of_subject (horder : InOrder o) (h : o.Attested fun _ => True)
    (hm : o.Reaches m) {g : FunctionRef} {f : Function} {x : ObjectRef}
    (hf : m.store.function? g = some f) (hinit : f.declaration.IsInitializer)
    (hx : o.subjects[f.closure.index]? = some (some (.receiver (.object x)))) :
    m.Initializes g x := by
  have hkept : Kept m o.watched := by
    rcases hm with rfl | ⟨v, hv, rfl⟩
    · exact horder.sound.kept
    · exact horder.sound.held v hv
  obtain ⟨origin, subject, -, hsubject, hholds⟩ :=
    hkept.holds f.closure ((h.lawful_of_reaches hm).function hf).closure
  cases hx.symm.trans hsubject
  refine ⟨f, hf, hinit, ?_⟩
  revert hholds
  cases origin with
  | none => exact False.elim
  | some site =>
    obtain ⟨opening, p⟩ := site
    cases opening with
    | receiver => exact fun hholds => Store.bound?_of_entries hholds.1 rfl
    | block | function | parent => exact False.elim

end Observation

/-- Whatever is done in a session, no statement at the top of a program that was executed ends with
a return, and what a statement of an initializer returns is nil. An initializer is bound to the
object that its scope was opened for, and stays bound to it. When it is called and the call comes to
its end, the call gives this object, whether the initializer was bound to make the object, taken
from it or from `super`, or kept to be called later. -/
theorem returns_contained (detail : Nat) (clock : Clock) (acts : List Act) :
    let o := (Observation.start detail clock).after acts
    o.session = (Session.start detail clock).after acts ∧
    (∀ q ∈ o.programs, q.Accepted ∧
      ∀ t ∈ q.resolved, t.NeverReturns ∧ ∀ u, t.InInitializer u → u.ReturnsNil) ∧
    (∀ m, o.Reaches m → ∀ g f x, m.store.function? g = some f → f.declaration.IsInitializer →
      o.subjects[f.closure.index]? = some (some (.receiver (.object x))) → m.Initializes g x) ∧
    (∀ m m', o.Reaches m → o.Reaches m' → ∀ g f x, m.Initializes g x →
      m'.store.function? g = some f → m'.Initializes g x) ∧
    ∀ m, o.Meets m → m.YieldsObjects := by
  intro o
  have horder : InOrder o := (InOrder.start detail clock).after acts
  have h : o.Attested fun _ => True :=
    attested_after acts (.start detail clock) (.start detail clock)
  refine ⟨Observation.session_after acts _, fun q hq => ?_, fun m hm g f x hf hinit hx => ?_,
    fun m m' hm hm' g f x hg hf => ?_, fun m hm => (h.lawful_of_meets hm).yieldsObjects⟩
  · have haccepted := horder.accepted q hq
    refine ⟨haccepted, fun t ht => ?_⟩
    obtain ⟨hobeys, hall⟩ := haccepted.obeys t ht
    exact ⟨Tree.neverReturns_of_obeys hobeys, fun u hu => hall.returnsNil hu⟩
  · exact Observation.initializes_of_subject horder h hm hf hinit hx
  · exact h.initializes_of_reaches hm hm' hg hf

/-- An initializer that returns from inside a loop, on the word of a function that returns a value.
It is taken from the object and kept. -/
def keptActs : List Act :=
  [.run "class A { init(b) { while (true) { fun f() { return b; } if (f()) return; b = true; } } }",
    .run "var kept = A(nil).init;"]

/-- What is left after the acts. -/
def keptObservation : Observation :=
  (Observation.start 0 (.still 0)).after keptActs

/-- Whether a function is an initializer whose scope was opened for an object. -/
def Observation.hasInitializer (o : Observation) (g : FunctionRef) (x : ObjectRef) : Bool :=
  match o.session.machine.store.function? g with
  | some ⟨_, .funDecl (.token ⟨_, .str s, _, _⟩) _ _, closure, _⟩ =>
    s == "init" && match o.subjects[closure.index]? with
      | some (some (.receiver (.object y))) => x == y
      | _ => false
  | _ => false

/-- An observed initializer is one in the store, with its object in its closure. -/
theorem Observation.exists_of_hasInitializer {o : Observation} {g : FunctionRef} {x : ObjectRef}
    (h : o.hasInitializer g x = true) : ∃ f, o.session.machine.store.function? g = some f ∧
      f.declaration.IsInitializer ∧
      o.subjects[f.closure.index]? = some (some (.receiver (.object x))) := by
  unfold hasInitializer at h
  split at h
  · next hf =>
    obtain ⟨hs, hx⟩ := Bool.and_eq_true_iff.1 h
    cases eq_of_beq hs
    split at hx
    · next hsubject =>
      cases eq_of_beq hx
      exact ⟨_, hf, ⟨_, _, _, rfl, rfl⟩, hsubject⟩
    · cases hx
  · cases h

/-- The kept initializer is called with `false`. -/
def keptCall : Exec Value :=
  Exec.call 9 60 (.function ⟨4⟩) [.scalar (.bool false)] (.token (.ofText .rightParen ")" .nil 1))

/-- An initializer that was kept and is called later gives its object. -/
theorem returns_contained_kept : ∃ result m',
    keptObservation.session.machine.Initializes ⟨4⟩ ⟨0⟩ ∧
    keptCall keptObservation.session.machine = .ok result m' ∧ result = .object ⟨0⟩ := by
  have hhas : keptObservation.hasInitializer ⟨4⟩ ⟨0⟩ = true := by decide +kernel
  have hends : (keptCall.run' keptObservation.session.machine).isSome = true := by decide +kernel
  obtain ⟨f, hf, hinit, hsubject⟩ := Observation.exists_of_hasInitializer hhas
  obtain ⟨-, -, hbound, -, hyields⟩ := returns_contained 0 (.still 0) keptActs
  have hreaches : keptObservation.Reaches keptObservation.session.machine := .inl rfl
  have hinitializes := hbound _ hreaches _ _ _ hf hinit hsubject
  unfold EStateM.run' EStateM.run at hends
  cases hcall : keptCall keptObservation.session.machine with
  | ok result m' =>
    exact ⟨result, m', hinitializes, rfl, (hyields _ (.reached hreaches)).call hinitializes hcall⟩
  | error e m' =>
    rw [hcall] at hends
    cases hends

end LoxLang
