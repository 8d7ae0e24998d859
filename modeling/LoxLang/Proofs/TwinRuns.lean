import LoxLang.Proofs.Restoration
import LoxLang.Proofs.Twins

/-!
# Runs that go in step

Programs that correspond to each other run alike. `InStep` says of two computations that from paired
machines both give a result or both stop, that the machines are paired again, that what stops them
differs at most in its line, and that a result leaves each machine in the scope where it was. It
holds of each step of the machine, and so of the four walks over trees that may stand for each other
(`inStep_walks`). What is traced can name the names and the lines of a program: alike machines trace
at the same places, and the same if no name and no line changes.
-/

namespace LoxLang

/-- The same stops a run, if it is an error then maybe at another line. -/
def StopLike (ρ : Change) : Stop → Stop → Prop
  | .runtime e, .runtime e' => e'.cause = e.cause ∧ ρ.line e.line e'.line
  | .overflow, .overflow => True
  | .fault f, .fault f' => f' = f
  | .unfinished, .unfinished => True
  | _, _ => False

variable {ρ : Change} {e e' : Stop} {b : Bool} {c : ClassRef} {o : ObjectRef} {kind : Token.Kind}
  {m₁ : Machine}

theorem StopLike.refl (hline : ∀ a, ρ.line a a) (e : Stop) : StopLike ρ e e := by
  cases e with
  | runtime e => exact ⟨rfl, hline e.line⟩
  | fault f => rfl
  | _ => trivial

/-- Stops are the same if the lines are. -/
theorem StopLike.eq_of_faithful (h : StopLike ρ e e') (hρ : ρ.Faithful) : e' = e := by
  cases e with
  | runtime error =>
    cases e' with
    | runtime error' =>
      obtain ⟨cause, line⟩ := error
      obtain ⟨cause', line'⟩ := error'
      obtain ⟨hcause, hline⟩ := h
      cases hcause
      cases hρ.line hline
      rfl
    | _ => exact h.elim
  | overflow =>
    cases e' with
    | overflow => rfl
    | _ => exact h.elim
  | fault f =>
    cases e' with
    | fault f' => exact congrArg Stop.fault h
    | _ => exact h.elim
  | unfinished =>
    cases e' with
    | unfinished => rfl
    | _ => exact h.elim

namespace Twins

variable {C : Correspondence}

/-- The computations both give a result, or the same stops both. -/
inductive Runs {α α' : Type} (x : Exec α) (x' : Exec α') (p : Twins C)
    (Q : Twins C → α → α' → Prop) : Prop where
  | result {q : Twins C} {a : α} {a' : α'} (left : x p.left = .ok a q.left)
      (right : x' p.right = .ok a' q.right) (grows : p.Grows q) (paired : q.Paired)
      (holds : Q q a a')
  | stop {q : Twins C} {e e' : Stop} (left : x p.left = .error e q.left)
      (right : x' p.right = .error e' q.right) (like : StopLike C.change e e') (grows : p.Grows q)
      (paired : q.Paired)

/-- The same, and a result leaves the machines in the scopes where they were. -/
def InStep {α α' : Type} (x : Exec α) (x' : Exec α') (p : Twins C) (Q : Twins C → α → α' → Prop) :
    Prop :=
  Runs x x' p fun q a a' =>
    (q.left.current = p.left.current ∧ q.right.current = p.right.current) ∧ Q q a a'

/-- From the current scopes steps out lead where the setting says. -/
abbrev Here (p : Twins C) (π : Setting) : Prop :=
  p.Reaches p.left.current p.right.current π

section Rules

variable {α α' β β' : Type} {x y : Exec α} {x' y' : Exec α'} {k : α → Exec β} {k' : α' → Exec β'}
  {p : Twins C} {P : Twins C → α → α' → Prop} {Q : Twins C → β → β' → Prop}

/-- Two steps run in step if each does. -/
theorem Runs.bind (hx : Runs x x' p P)
    (hk : ∀ {q a a'}, p.Grows q → q.Paired → P q a a' → Runs (k a) (k' a') q Q) :
    Runs (x >>= k) (x' >>= k') p Q := by
  cases hx with
  | result left right grows paired holds =>
    cases hk grows paired holds with
    | result left' right' grows' paired' holds' =>
      exact .result ((bind_of_ok left).trans left') ((bind_of_ok right).trans right')
        (grows.trans grows') paired' holds'
    | stop left' right' like' grows' paired' =>
      exact .stop ((bind_of_ok left).trans left') ((bind_of_ok right).trans right') like'
        (grows.trans grows') paired'
  | stop left right like grows paired =>
    exact .stop (bind_of_error left) (bind_of_error right) like grows paired

theorem Runs.imp {P' : Twins C → α → α' → Prop} (hx : Runs x x' p P)
    (h : ∀ {q a a'}, P q a a' → P' q a a') : Runs x x' p P' := by
  cases hx with
  | result left right grows paired holds => exact .result left right grows paired (h holds)
  | stop left right like grows paired => exact .stop left right like grows paired

theorem Runs.congr (h : Runs y y' p P) (hx : x p.left = y p.left)
    (hx' : x' p.right = y' p.right) : Runs x x' p P := by
  cases h with
  | result left right grows paired holds =>
    exact .result (hx.trans left) (hx'.trans right) grows paired holds
  | stop left right like grows paired =>
    exact .stop (hx.trans left) (hx'.trans right) like grows paired

variable {r : Except Fault α} {r' : Except Fault α'}

namespace InStep

theorem pure {a : α} {a' : α'} (h : p.Paired) (ha : P p a a') :
    InStep (Pure.pure a) (Pure.pure a') p P :=
  .result rfl rfl (.refl p) h ⟨⟨rfl, rfl⟩, ha⟩

theorem throw (h : p.Paired) (he : StopLike C.change e e') :
    InStep (MonadExcept.throw e : Exec α) (MonadExcept.throw e' : Exec α') p P :=
  .stop rfl rfl he (.refl p) h

theorem bind (hx : InStep x x' p P)
    (hk : ∀ {q a a'}, p.Grows q → q.Paired → q.left.current = p.left.current →
      q.right.current = p.right.current → P q a a' → InStep (k a) (k' a') q Q) :
    InStep (x >>= k) (x' >>= k') p Q := by
  refine Runs.bind hx fun {q a a'} hg hq h => ?_
  obtain ⟨⟨hl, hr⟩, ha⟩ := h
  refine Runs.imp (hk hg hq hl hr ha) fun h => ?_
  exact ⟨⟨h.1.1.trans hl, h.1.2.trans hr⟩, h.2⟩

/-- The next step, in the same scope. -/
theorem next {π : Setting} (hx : InStep x x' p P) (h : p.Paired) (hf : p.Here π)
    (hk : ∀ {q a a'}, p.Grows q → q.Paired → q.Here π → P q a a' →
      InStep (k a) (k' a') q Q) :
    InStep (x >>= k) (x' >>= k') p Q := by
  refine hx.bind fun hg hq hl hr ha => hk hg hq ?_ ha
  unfold Here
  rw [hl, hr]
  exact hf.mono h hg

/-- A look at the machines. -/
theorem look {k : Machine → Exec β} {k' : Machine → Exec β'}
    (hk : InStep (k p.left) (k' p.right) p Q) : InStep (get >>= k) (get >>= k') p Q :=
  Runs.congr hk rfl rfl

theorem lift {R : α → α' → Prop} (h : p.Paired) (hr : SameFault R r r')
    (hk : ∀ {a a'}, R a a' → InStep (k a) (k' a') p Q) :
    InStep (Exec.lift r >>= k) (Exec.lift r' >>= k') p Q := by
  cases hr with
  | ok ha => exact hk ha
  | error fault => exact throw h rfl

/-- The same value or the same fault is given. -/
theorem give (h : p.Paired) (hr : SameFault (P p) r r') :
    InStep (Exec.lift r) (Exec.lift r') p P := by
  cases hr with
  | ok ha => exact pure h ha
  | error fault => exact throw h rfl

end InStep

/-- A change that both machines make. -/
theorem inStep_modify {g g' : Machine → Machine} {q : Twins C}
    {Q : Twins C → PUnit → PUnit → Prop} (hg : g p.left = q.left) (hg' : g' p.right = q.right)
    (h : q.Paired) (grows : p.Grows q) (hl : q.left.current = p.left.current)
    (hr : q.right.current = p.right.current) (hQ : Q q ⟨⟩ ⟨⟩) :
    InStep (modify g) (modify g') p Q :=
  .result (congrArg (EStateM.Result.ok _) hg) (congrArg (EStateM.Result.ok _) hg') grows h
    ⟨⟨hl, hr⟩, hQ⟩

end Rules

/-! ## Steps -/

section Steps

variable {α : Type} {p : Twins C} {π : Setting} {marked : Bool} {slot slot' : Tree}
  {r r' : ScopeRef} {name name' : Name} {left right v : Value} {depth : Option Nat}
  {k k' : Function} {m : Machine} {values : List Value} {evaluate : Tree → Exec Value}
  {ts ts' : List Tree} {parent : Option ClassRef} {room rounds : Nat}

/-- The same value, which a program can get hold of. -/
def SameValue (p : Twins C) (v v' : Value) : Prop :=
  v' = v ∧ p.Fits v

/-- The same values on both sides, all of which fit. -/
def SameValues (p : Twins C) (vs vs' : List Value) : Prop :=
  vs' = vs ∧ ∀ v ∈ vs, p.Fits v

/-- Statements end the same way. -/
def SameEnd (p : Twins C) (c c' : Completion) : Prop :=
  c' = c ∧ p.Fits c.value

/-- The same is given, and nothing is known of it. -/
def Same {α : Type} (_ : Twins C) (a a' : α) : Prop :=
  a' = a

theorem raise_stops (slot : Tree) (cause : RuntimeCause) :
    ∃ e, ∀ m, (Exec.raise slot cause : Exec α) m = .error e m := by
  unfold Exec.raise
  cases slot.asToken? with
  | some t => exact ⟨_, fun _ => rfl⟩
  | none =>
    cases slot.isNull with
    | true => exact ⟨_, fun _ => rfl⟩
    | false => exact ⟨_, fun _ => rfl⟩

/-- What stops the machines at a slot. -/
theorem exists_raise (cause : RuntimeCause) (hs : C.change.Names marked slot slot') :
    ∃ e e', StopLike C.change e e' ∧ (∀ m, (Exec.raise slot cause : Exec α) m = .error e m) ∧
      ∀ m, (Exec.raise slot' cause : Exec α) m = .error e' m := by
  rcases hs with ⟨a, a', rfl, rfl, -, hline⟩ | ⟨rfl, hline, -⟩
  · exact ⟨.runtime ⟨cause, a.line⟩, .runtime ⟨cause, a'.line⟩, ⟨rfl, hline⟩, fun _ => rfl,
      fun _ => rfl⟩
  · obtain ⟨e, he⟩ := raise_stops (α := α) slot' cause
    exact ⟨e, e, .refl hline e, he, he⟩

variable {Q : Twins C → α → α → Prop} {x : Exec α}

theorem inStep_raise {cause : RuntimeCause} (h : p.Paired) (hs : C.change.Names marked slot slot') :
    InStep (Exec.raise slot cause) (Exec.raise slot' cause) p Q := by
  obtain ⟨e, e', hlike, he, he'⟩ := exists_raise (α := α) cause hs
  exact .stop (he _) (he' _) hlike (.refl p) h

theorem inStep_orRaise {r : Except RuntimeCause Value} (h : p.Paired)
    (hs : C.change.Words slot slot') (hr : ∀ v, r = .ok v → p.Fits v) :
    InStep (Exec.orRaise slot r) (Exec.orRaise slot' r) p SameValue := by
  cases r with
  | ok v => exact .pure h ⟨rfl, hr v rfl⟩
  | error cause => exact inStep_raise h hs.names

/-- The token of a slot, and the name that it stands for. -/
theorem inStep_token {k k' : Token → Name → Exec α} (h : p.Paired)
    (hs : C.change.Names marked slot slot') (hk : ∀ {a a' name}, C.change.line a.line a'.line →
      InStep (k a name) (k' a' (C.change.rename marked name)) p Q) :
    InStep (Exec.lift slot.asToken >>= fun a => Exec.lift a.name >>= k a)
      (Exec.lift slot'.asToken >>= fun a => Exec.lift a.name >>= k' a) p Q := by
  refine .lift h hs.token fun {a a'} ha => ?_
  rw [ha.1]
  cases a.name with
  | ok name => exact hk ha.2
  | error fault => exact .throw h rfl

theorem sameFault_lookupAt {d d' : Nat} (h : p.Paired)
    (hv : p.right.store.lookupAt d' r' name' = p.left.store.lookupAt d r name) :
    SameFault p.SameValue (p.left.store.lookupAt d r name) (p.right.store.lookupAt d' r' name') := by
  rw [hv]
  cases hl : p.left.store.lookupAt d r name with
  | ok v => exact .ok ⟨rfl, h.fits_lookupAt hl⟩
  | error fault => exact .error fault

/-- What the machines trace is the same if no name and no line changes. -/
def SameLine (C : Correspondence) : Except Fault String → Except Fault String → Prop :=
  SameFault fun text text' => C.traced → text' = text

theorem sameLine_refl (line : Except Fault String) : SameLine C line line := by
  cases line with
  | ok text => exact .ok fun _ => rfl
  | error fault => exact .error fault

/-- Both machines trace a line, or none. -/
theorem inStep_note {level : Nat} {line line' : Machine → Except Fault String} (h : p.Paired)
    (hl : SameLine C (line p.left) (line' p.right)) :
    InStep (Exec.note level line) (Exec.note level line') p Same := by
  refine .look ?_
  rw [h.detail]
  split
  · next hd =>
    refine .lift h hl fun {text text'} htext => ?_
    let q := p.shows p.left.output p.left.clock (p.left.trace.write text) (p.right.trace.write text')
    have hnote : p.left.note level text = q.left := if_pos hd
    have hnote' : p.right.note level text' = q.right := by
      rw [Machine.note, if_pos (h.detail ▸ hd)]
      simp only [q, Twins.shows, ← h.output, ← h.clock]
    have hsame (hρ : C.traced) : p.right.trace.write text' = p.left.trace.write text := by
      rw [htext hρ, h.trace hρ]
    exact inStep_modify hnote hnote' (h.shows _ _ h.blocked hsame) (Paired.grows_shows p _ _ _ _)
      rfl rfl rfl
  · exact .pure h rfl

theorem inStep_defineIn (h : p.Paired) (hr : r.index < p.left.store.scopes.size)
    (hr' : r' = p.image r) (hn : name' = C.change.rename (p.marked r) name) (hv : p.Fits v) :
    InStep (Exec.defineIn r name v) (Exec.defineIn r' name' v) p Same := by
  subst hr' hn
  exact inStep_modify rfl rfl (h.define hr name hv) (h.grows_define hr name v) rfl rfl rfl

/-- A name is bound in the current scope. -/
theorem inStep_define (h : p.Paired) (hf : p.Here π) (h0 : π.number 0 = 0)
    (hn : name' = C.change.rename (π.marks.headD false) name) (hv : p.Fits v) :
    InStep (Exec.define name v) (Exec.define name' v) p Same := by
  have hstore : p.right.store.define p.right.current name' v =
      (p.define p.left.current name v).right.store := by
    rw [hn, ← hf.marked_eq, hf.image_eq h0]
    rfl
  exact inStep_modify rfl (congrArg (fun store => { p.right with store }) hstore)
    (h.define hf.left name hv) (h.grows_define hf.left name v) rfl rfl rfl

/-- A name is looked up in step. -/
theorem inStep_lookUp (h : p.Paired) (hf : p.Here π)
    (hs : C.change.Names (markAt π.marks depth) slot slot') :
    InStep (Exec.lookUp slot depth) (Exec.lookUp slot' (depth.map π.number)) p SameValue := by
  refine inStep_token h hs fun {a a' name} hline => .look ?_
  cases depth with
  | some d => exact .give h (sameFault_lookupAt h (h.lookupAt_eq hf d name))
  | none =>
    show InStep (Exec.orStop (p.left.store.lookup p.left.globals name a.line))
      (Exec.orStop (p.right.store.lookup p.right.globals name a'.line)) p SameValue
    unfold Store.lookup
    rw [h.lookup?_globals]
    cases hv : p.left.store.lookup? p.left.globals name with
    | some v =>
      obtain ⟨b, -, hb⟩ := List.exists_of_findSome?_eq_some hv
      exact .pure h ⟨rfl, h.values hb⟩
    | none => exact .throw h ⟨rfl, hline⟩

/-- A name is assigned in step. -/
theorem inStep_assign (h : p.Paired) (hf : p.Here π)
    (hs : C.change.Names (markAt π.marks depth) slot slot') (hv : p.Fits v) :
    InStep (Exec.assign slot depth v) (Exec.assign slot' (depth.map π.number) v) p Same := by
  refine inStep_token h hs fun {a a' name} hline => ?_
  unfold Exec.targetOf
  simp only [bind_assoc]
  refine .look ?_
  cases depth with
  | some d =>
    show InStep (Exec.lift (p.left.store.scopeAt d p.left.current) >>= _)
      (Exec.lift (p.right.store.scopeAt (π.number d) p.right.current) >>= _) p Same
    rw [hf.scopeAt]
    cases hb : p.left.store.scopeAt d p.left.current with
    | error fault => exact .throw h rfl
    | ok b =>
      refine inStep_defineIn h (h.enclosedLeft.scopeAt_lt hf.left hb) rfl ?_ hv
      rw [hf.marked hb]
      rfl
  | none =>
    show InStep (Exec.orStop (p.left.store.holder p.left.globals name a.line) >>= _)
      (Exec.orStop (p.right.store.holder p.right.globals name a'.line) >>= _) p Same
    unfold Store.holder
    rw [h.holder?_globals]
    cases hb : p.left.store.holder? p.left.globals name with
    | none => exact .throw h ⟨rfl, hline⟩
    | some b =>
      have hold := h.lt_of_mem_chain (List.mem_of_find?_eq_some hb)
      refine inStep_defineIn h (Nat.lt_of_lt_of_le hold h.old_le) (h.image_old hold).symm ?_ hv
      rw [h.marked_old hold]
      rfl

/-! ## Functions, classes and objects -/

theorem inStep_addScope {e e' : ScopeRef} (h : p.Paired) (he : p.Reaches e e' π) (marked : Bool) :
    InStep (Exec.addScope e) (Exec.addScope e') p fun q r r' => q.Reaches r r' (π.inside marked) :=
  .result rfl rfl (Paired.grows_addScope p e e' marked) (h.addScope marked he.left he.right)
    ⟨⟨rfl, rfl⟩, he.addScope h marked⟩

theorem inStep_addFunction (h : p.Paired) (hk : p.Corresponding b k k') :
    InStep (Exec.addFunction k) (Exec.addFunction k') p fun q r r' => r' = r ∧ q.Has b r :=
  .result rfl rfl (Paired.grows_addFunction p k k') (h.addFunction hk)
    ⟨⟨rfl, rfl⟩, congrArg FunctionRef.mk h.functions_size, h.has_addFunction hk⟩

theorem inStep_addClass {k : Class} (h : p.Paired)
    (hk : ∀ {name r}, k.methods.find? name = some r → p.Has true r)
    (hs : ∀ {c}, k.superclass = some c → p.Fits (.cls c)) :
    InStep (Exec.addClass k) (Exec.addClass k) p fun q c c' => c' = c ∧ q.Fits (.cls c) := by
  refine .result rfl rfl (Paired.grows_addClass p k) (h.addClass hk hs)
    ⟨⟨rfl, rfl⟩, congrArg (fun cs : Array Class => ClassRef.mk cs.size) h.classes, fun _ => ?_⟩
  show p.left.store.classes.size < (p.left.store.classes.push k).size
  simp

theorem inStep_addObject (h : p.Paired) (c : ClassRef) :
    InStep (Exec.addObject { cls := c }) (Exec.addObject { cls := c }) p Same :=
  .result rfl rfl (Paired.grows_addObject p { cls := c }) (h.addObject c)
    ⟨⟨rfl, rfl⟩, congrArg (fun os : Array Object => ObjectRef.mk os.size) h.objects⟩

theorem inStep_functionAt {r : FunctionRef} {k k' : Function → Exec α} (hr : p.Has b r)
    (hk : ∀ g g', p.Corresponding b g g' → InStep (k g) (k' g') p Q) :
    InStep (Exec.functionAt r >>= k) (Exec.functionAt r >>= k') p Q := by
  obtain ⟨g, g', hg, hg', hl⟩ := hr
  exact Runs.congr (hk g g' hl) (bind_of_ok (functionAt_ok hg)) (bind_of_ok (functionAt_ok hg'))

/-- What a bound method is made of. -/
theorem bindMethod_ok {r : FunctionRef} (this : Value) (hk : m.store.function? r = some k) :
    Exec.bindMethod r this m = .ok ⟨m.store.functions.size⟩ { m with
      store := (((m.store.addScope (some k.closure)).2.define ⟨m.store.scopes.size⟩
        (.ofText "this") this).addFunction { k with closure := ⟨m.store.scopes.size⟩ }).2 } := by
  have hbind : m.store.bindMethod r this = (((m.store.addScope (some k.closure)).2.define
      ⟨m.store.scopes.size⟩ (.ofText "this") this).addFunction
        { k with closure := ⟨m.store.scopes.size⟩ }) := by
    unfold Store.bindMethod
    rw [hk]
    rfl
  have hrun : Exec.bindMethod r this m =
      .ok (m.store.bindMethod r this).1 { m with store := (m.store.bindMethod r this).2 } := rfl
  rw [hrun, hbind]
  rfl

/-- Both machines with a method bound to an object, in a scope of its own that is not marked. -/
def bindMethod (p : Twins C) (k k' : Function) (this : Value) : Twins C :=
  ((p.addScope k.closure k'.closure false).define ⟨p.left.store.scopes.size⟩ (.ofText "this")
    this).addFunction { k with closure := ⟨p.left.store.scopes.size⟩ }
      { k' with closure := ⟨p.right.store.scopes.size⟩ }

theorem bindMethod_right {r : FunctionRef} (k : Function) (this : Value)
    (hk' : p.right.store.function? r = some k') :
    Exec.bindMethod r this p.right =
      .ok ⟨p.right.store.functions.size⟩ (p.bindMethod k k' this).right := by
  rw [bindMethod_ok this hk']
  simp only [bindMethod, Twins.addFunction, Twins.define, withStores,
    Paired.image_addScope_self p k.closure k'.closure, Change.rename_this]
  rfl

/-- A method is bound in step. -/
theorem inStep_bindMethod {r : FunctionRef} {this : Value} (h : p.Paired) (hr : p.Has true r)
    (ht : p.Fits this) :
    InStep (Exec.bindMethod r this) (Exec.bindMethod r this) p fun q k k' =>
      k' = k ∧ q.Has false k := by
  obtain ⟨k, k', hk, hk', hname, hinit, π, hπ, hd⟩ := hr
  have hgrows₁ := Paired.grows_addScope p k.closure k'.closure false
  have h₁ := h.addScope false hπ.left hπ.right
  have hreach₁ := hπ.addScope h false
  have hgrows₂ := h₁.grows_define hreach₁.left (.ofText "this") this
  have h₂ := h₁.define hreach₁.left (.ofText "this") (ht.mono h hgrows₁)
  have hlike : ((p.addScope k.closure k'.closure false).define ⟨p.left.store.scopes.size⟩
      (.ofText "this") this).Corresponding false { k with closure := ⟨p.left.store.scopes.size⟩ }
      { k' with closure := ⟨p.right.store.scopes.size⟩ } :=
    ⟨hname, hinit, π.inside false, hreach₁.mono h₁ hgrows₂, hd⟩
  have hgrows : p.Grows (p.bindMethod k k' this) :=
    (hgrows₁.trans hgrows₂).trans (Paired.grows_addFunction _ _ _)
  exact .result (bindMethod_ok this hk) (bindMethod_right k this hk') hgrows
    (h₂.addFunction hlike)
    ⟨⟨rfl, rfl⟩, congrArg FunctionRef.mk h.functions_size, h₂.has_addFunction hlike⟩

/-- A method is looked up in step. -/
theorem inStep_methodOf {line line' : Json} {this : Value} (h : p.Paired)
    (hline : C.change.line line line') (ht : p.Fits this) :
    InStep (Exec.methodOf c name line this) (Exec.methodOf c name line' this) p SameValue := by
  refine .look ?_
  rw [h.findMethod?_eq]
  cases hr : p.left.store.findMethod? c name with
  | none => exact .throw h ⟨rfl, hline⟩
  | some r =>
    refine (inStep_bindMethod h (h.has_findMethod? hr) ht).bind ?_
    rintro q _ k - hq - - ⟨rfl, hk⟩
    exact .pure hq ⟨rfl, hk⟩

/-- A property is looked up in step. -/
theorem inStep_property (h : p.Paired) (hs : C.change.Words slot slot') :
    InStep (Exec.property o slot) (Exec.property o slot') p SameValue := by
  refine inStep_token h hs.names fun {a a' name} hline => ?_
  unfold Exec.objectAt
  simp only [bind_assoc]
  refine .look ?_
  rw [h.object?_eq]
  cases hk : p.left.store.object? o with
  | none => exact .throw h rfl
  | some k =>
    simp only [pure_bind, Change.rename_false]
    cases hv : k.fields.find? name with
    | some v => exact .pure h ⟨rfl, h.fields hk hv⟩
    | none => exact inStep_methodOf h hline trivial

theorem inStep_setField (h : p.Paired) (hs : C.change.Words slot slot') (hv : p.Fits v) :
    InStep (Exec.setField o slot v) (Exec.setField o slot' v) p Same := by
  refine .lift h hs.names.name ?_
  rintro _ name rfl
  exact inStep_modify rfl rfl (h.setField o name hv) (Paired.grows_setField p o name v) rfl rfl rfl

/-- The scope of `this` is right inside the one of `super` on both sides. -/
theorem inStep_superMethod (h : p.Paired) (hf : p.Here π)
    (hd : ∀ d, depth = some d → π.number d - 1 = π.number (d - 1)) (hs : C.change.Words slot slot') :
    InStep (Exec.superMethod slot depth) (Exec.superMethod slot' (depth.map π.number)) p
      SameValue := by
  cases depth with
  | none => exact .throw h rfl
  | some d =>
    have hsuper := h.lookupAt_eq hf d (.ofText "super")
    have hthis := h.lookupAt_eq hf (d - 1) (.ofText "this")
    rw [Change.rename_super] at hsuper
    rw [Change.rename_this, ← hd d rfl] at hthis
    refine .look (.lift h (sameFault_lookupAt h hsuper) ?_)
    rintro _ parent ⟨rfl, -⟩
    refine .lift h (sameFault_lookupAt h hthis) ?_
    rintro _ this ⟨rfl, ht⟩
    cases parent with
    | cls c => exact inStep_token h hs.names fun hline => inStep_methodOf h hline ht
    | _ => exact .throw h rfl

/-! ## Operators -/

theorem fits_unary (h : Value.unary kind right = .ok v) : p.Fits v := by
  unfold Value.unary at h
  split at h <;> cases h <;> trivial

/-- An operator gives values that fit. -/
theorem fits_binary (h : Value.binary kind left right = .ok v) : p.Fits v := by
  unfold Value.binary at h
  split at h
  · unfold Value.add at h
    split at h <;> cases h <;> trivial
  · cases h
    trivial
  · cases h
    trivial
  · split at h
    · next x y =>
      cases ha : Value.arithmetic kind x y with
      | ok s =>
        rw [ha] at h
        cases h
        trivial
      | error cause =>
        rw [ha] at h
        cases h
    · cases h

theorem inStep_unary (h : p.Paired) (hs : C.change.Words slot slot') :
    InStep (Exec.unary slot right) (Exec.unary slot' right) p SameValue := by
  refine .lift h hs.token fun ha => ?_
  rw [ha.1]
  exact inStep_orRaise h hs fun _ => fits_unary

theorem inStep_binary (h : p.Paired) (hs : C.change.Words slot slot') :
    InStep (Exec.binary slot left right) (Exec.binary slot' left right) p SameValue := by
  refine .lift h hs.token fun ha => ?_
  rw [ha.1]
  exact inStep_orRaise h hs fun _ => fits_binary

theorem inStep_decidesLeft (h : p.Paired) (hs : C.change.Words slot slot') :
    InStep (Exec.decidesLeft slot left) (Exec.decidesLeft slot' left) p Same := by
  refine .lift h hs.token fun ha => .pure h ?_
  rw [ha.1]
  rfl

/-! ## Calls -/

/-- What the four walks have to give. -/
def EvaluatesInStep (C : Correspondence) (evaluate : Tree → Exec Value) : Prop :=
  ∀ {p : Twins C} {π : Setting} {t t' : Tree}, p.Paired → p.Here π → C.Like .expression π t t' →
    InStep (evaluate t) (evaluate t') p SameValue

/-- The same of statements. -/
def ExecutesInStep (C : Correspondence) (execute : Tree → Exec Completion) : Prop :=
  ∀ {p : Twins C} {π : Setting} {t t' : Tree}, p.Paired → p.Here π → C.Like .statement π t t' →
    InStep (execute t) (execute t') p SameEnd

/-- The same of bodies. -/
def BlocksInStep (C : Correspondence) (executeBlock : Tree → ScopeRef → Exec Completion) : Prop :=
  ∀ {p : Twins C} {π : Setting} {t t' : Tree} {r r' : ScopeRef}, p.Paired → p.Reaches r r' π →
    C.Like .body π t t' → InStep (executeBlock t r) (executeBlock t' r') p SameEnd

/-- The same of calls. -/
def CallsInStep (C : Correspondence) (call : Value → List Value → Tree → Exec Value) : Prop :=
  ∀ {p : Twins C} {v : Value} {values : List Value} {paren paren' : Tree}, p.Paired → p.Fits v →
    (∀ u ∈ values, p.Fits u) → C.change.Words paren paren' →
    InStep (call v values paren) (call v values paren') p SameValue

theorem inStep_checkArity (h : p.Paired) (hs : C.change.Words slot slot') (expected got : Nat) :
    InStep (Exec.checkArity slot expected got) (Exec.checkArity slot' expected got) p Same := by
  unfold Exec.checkArity
  split
  · exact .pure h rfl
  · exact inStep_raise h hs.names

/-- Parameters are bound in step. -/
theorem inStep_bindParameters {params params' : List Tree}
    (hp : List.Forall₂ (C.change.Names marked) params params') :
    ∀ {p : Twins C} {values : List Value}, p.Paired → p.Reaches r r' (π.inside marked) →
      (∀ v ∈ values, p.Fits v) →
      InStep (Exec.bindParameters r params values) (Exec.bindParameters r' params' values) p
        Same := by
  induction hp with
  | nil =>
    intro p values h _ _
    cases values <;> exact .pure h rfl
  | cons hparam _ ih =>
    intro p values h hr hv
    cases values with
    | nil => exact .pure h rfl
    | cons v values =>
      obtain ⟨hv, hvalues⟩ := List.forall_mem_cons.1 hv
      refine .lift h hparam.name fun {name name'} hn => ?_
      have hn' : name' = C.change.rename (p.marked r) name := by
        rw [hr.marked_eq]
        exact hn
      refine (inStep_defineIn h hr.left (hr.image_eq rfl) hn' hv).bind fun hg hq _ _ _ => ?_
      exact ih hq (hr.mono h hg) fun u hu => (hvalues u hu).mono h hg

theorem routineOf_eq (k : Function) : Exec.routineOf k = Exec.lift k.declaration.routine := by
  unfold Exec.routineOf Tree.routine
  cases k.declaration.routineSlots with
  | error fault => rfl
  | ok slots =>
    show Exec.lift slots.1.asItems >>= _ = Exec.lift (slots.1.asItems >>= _)
    cases slots.1.asItems with
    | error fault => rfl
    | ok params => rfl

/-- The parameters and the body of a function, in the setting of its declaration. -/
theorem inStep_routineOf (h : p.Paired) (hd : C.Like .method π k.declaration k'.declaration) :
    InStep (Exec.routineOf k) (Exec.routineOf k') p fun _ => RoutineForm C.change C.Like π := by
  rw [routineOf_eq, routineOf_eq]
  exact .give h (C.method hd).routine

theorem sameLine_callText (h : p.Paired) (hs : C.change.Words slot slot') :
    SameLine C (Exec.callText p.left name values slot) (Exec.callText p.right name values slot') := by
  unfold Exec.callText
  rw [h.texts_eq]
  cases p.left.store.texts values with
  | error fault => exact .error fault
  | ok texts =>
    show SameFault _ (slot.asToken >>= _) (slot'.asToken >>= _)
    refine SameFault.bind hs.token fun ha => .ok fun hρ => ?_
    rw [(C.faithful hρ).line ha.2.2]

/-- A function is called in step. -/
theorem inStep_callFunction {executeBlock : Tree → ScopeRef → Exec Completion} {r : FunctionRef}
    (hblock : BlocksInStep C executeBlock) (h : p.Paired) (hr : p.Has false r)
    (hv : ∀ v ∈ values, p.Fits v) (hs : C.change.Words slot slot') :
    InStep (Exec.callFunction executeBlock r values slot)
      (Exec.callFunction executeBlock r values slot') p SameValue := by
  refine inStep_functionAt hr fun k k' hk => ?_
  obtain ⟨hname, hinit, π, hreach, hd⟩ := hk
  rw [if_neg Bool.false_ne_true] at hd
  refine (inStep_routineOf h hd).bind ?_
  rintro p₁ ⟨params, body⟩ ⟨params', body'⟩ hg₁ h₁ - - ⟨h0, marked, hparams, hbody⟩
  dsimp only at hparams hbody ⊢
  rw [← hparams.length_eq]
  refine (inStep_checkArity h₁ hs _ _).bind fun {p₂ _ _} hg₂ h₂ _ _ _ => ?_
  rw [hname, hinit]
  refine (inStep_note h₂ (sameLine_callText h₂ hs)).bind fun {p₃ _ _} hg₃ h₃ _ _ _ => ?_
  have hreach₃ := ((hreach.mono h hg₁).mono h₁ hg₂).mono h₂ hg₃
  have hg := (hg₁.trans hg₂).trans hg₃
  refine (inStep_addScope h₃ hreach₃ marked).bind fun {p₄ scope scope'} hg₄ h₄ _ _ hscope => ?_
  have hv₄ : ∀ v ∈ values, p₄.Fits v := fun v hmem => (hv v hmem).mono h (hg.trans hg₄)
  refine (inStep_bindParameters hparams h₄ hscope hv₄).bind fun {p₅ _ _} hg₅ h₅ _ _ _ => ?_
  refine (hblock h₅ (hscope.mono h₄ hg₅) hbody).bind ?_
  rintro p₆ _ completion hg₆ h₆ - - ⟨rfl, hfits⟩
  cases k.isInitializer with
  | false => exact .pure h₆ ⟨rfl, hfits⟩
  | true =>
    have hreach₆ := hreach₃.mono h₃ ((hg₄.trans hg₅).trans hg₆)
    have hthis := h₆.lookupAt_eq hreach₆ 0 (.ofText "this")
    rw [h0, Change.rename_this] at hthis
    exact .look (.give h₆ (sameFault_lookupAt h₆ hthis))

theorem inStep_classArity {initializer : Option FunctionRef} (h : p.Paired)
    (hi : ∀ r, initializer = some r → p.Has true r) :
    InStep (Exec.classArity initializer) (Exec.classArity initializer) p Same := by
  cases initializer with
  | none => exact .pure h rfl
  | some r =>
    refine inStep_functionAt (hi r rfl) fun k k' hk => ?_
    obtain ⟨-, -, π, -, hd⟩ := hk
    refine (inStep_routineOf h hd).bind ?_
    rintro p₁ ⟨params, body⟩ ⟨params', body'⟩ - h₁ - - ⟨-, marked, hparams, -⟩
    exact .pure h₁ hparams.length_eq.symm

/-- A class is called in step. -/
theorem inStep_callClass {call : Value → List Value → Tree → Exec Value}
    (hcall : CallsInStep C call) (h : p.Paired) (hv : ∀ v ∈ values, p.Fits v)
    (hs : C.change.Words slot slot') :
    InStep (Exec.callClass (fun v => call v values slot) c values slot)
      (Exec.callClass (fun v => call v values slot') c values slot') p SameValue := by
  refine .look ?_
  rw [h.findMethod?_eq]
  have hi : ∀ r, p.left.store.findMethod? c (.ofText "init") = some r → p.Has true r :=
    fun r hr => h.has_findMethod? hr
  refine (inStep_classArity h hi).bind ?_
  rintro p₁ _ arity hg₁ h₁ - - rfl
  refine (inStep_checkArity h₁ hs _ _).bind fun {p₂ _ _} hg₂ h₂ _ _ _ => ?_
  refine (inStep_addObject h₂ c).bind ?_
  rintro p₃ _ o hg₃ h₃ - - rfl
  have hg := (hg₁.trans hg₂).trans hg₃
  cases hr : p.left.store.findMethod? c (.ofText "init") with
  | none => exact .pure h₃ ⟨rfl, trivial⟩
  | some r =>
    have ho : p₃.Fits (.object o) := trivial
    refine (inStep_bindMethod h₃ ((hi r hr).mono h hg) ho).bind ?_
    rintro p₄ _ k hg₄ h₄ - - ⟨rfl, hk⟩
    have hv₄ : ∀ v ∈ values, p₄.Fits v := fun v hmem => (hv v hmem).mono h (hg.trans hg₄)
    refine (hcall h₄ (v := .function k) hk hv₄ hs).bind fun _ h₅ _ _ _ => ?_
    exact .pure h₅ ⟨rfl, trivial⟩

/-! ## Declarations -/

theorem sameLine_varText (h : p.Paired) (hn : name' = C.change.rename marked name) :
    SameLine C (Exec.varText p.left name v) (Exec.varText p.right name' v) := by
  unfold Exec.varText
  rw [h.text_eq]
  cases p.left.store.text v with
  | error fault => exact .error fault
  | ok text =>
    refine .ok fun hρ => ?_
    rw [hn, (C.faithful hρ).rename]

theorem inStep_declareVar (h : p.Paired) (hf : p.Here π) (h0 : π.number 0 = 0)
    (hs : C.change.Names (π.marks.headD false) slot slot') (hv : p.Fits v) :
    InStep (Exec.declareVar slot v) (Exec.declareVar slot' v) p SameEnd := by
  refine .lift h hs.name fun hn => (inStep_define h hf h0 hn hv).bind fun _ hq _ _ _ => ?_
  exact (inStep_note hq (sameLine_varText hq hn)).bind fun _ hq' _ _ _ => .pure hq' ⟨rfl, trivial⟩

/-- The name of a declaration is the same on both sides, also where it changes. -/
theorem sameFault_declared (hs : C.change.Words slot slot')
    (hn : C.change.Names marked slot slot') :
    SameFault (fun n n' => n' = n ∧ n = C.change.rename marked n) slot.asName slot'.asName := by
  have hsame := hs.name_eq
  obtain ⟨fault, hr, hr'⟩ | ⟨n, n', hr, hr', hn⟩ := hn.name.cases
  · rw [hr, hr']
    exact .error fault
  · rw [hr, hr'] at hsame ⊢
    cases hsame
    exact .ok ⟨rfl, hn⟩

/-- A function is declared in step. -/
theorem inStep_declareFunction {name name' params params' body body' : Tree} (h : p.Paired)
    (hf : p.Here π) (h0 : π.number 0 = 0) (hs : C.change.Words name name')
    (hn : C.change.Names (π.marks.headD false) name name')
    (hd : C.Like .method π (.funDecl name params body) (.funDecl name' params' body')) :
    InStep (Exec.declareFunction (.funDecl name params body) name)
      (Exec.declareFunction (.funDecl name' params' body') name') p SameEnd := by
  refine .lift h (sameFault_declared hs hn) ?_
  rintro _ key ⟨rfl, hkey⟩
  refine .look ?_
  have hk : p.Corresponding false
      { name := key, declaration := .funDecl name params body, closure := p.left.current }
      { name := key, declaration := .funDecl name' params' body', closure := p.right.current } :=
    ⟨rfl, rfl, π, hf, hd⟩
  refine (inStep_addFunction h hk).next h hf ?_
  rintro q _ r - hq hf' ⟨rfl, hr⟩
  refine (inStep_define (v := .function r) hq hf' h0 hkey hr).bind fun _ hq₁ _ _ _ => ?_
  exact (inStep_note hq₁ (sameLine_refl _)).bind fun _ hq₂ _ _ _ => .pure hq₂ ⟨rfl, trivial⟩

/-- What is shown and the clock change in step. -/
theorem inStep_shows (h : p.Paired) (print : Array String → Array String) (tick : Clock → Clock) :
    let step : Exec PUnit := modify fun m : Machine =>
      { m with output := print m.output, clock := tick m.clock }
    InStep step step p Same := by
  refine inStep_modify rfl ?_
    (h.shows (print p.left.output) (tick p.left.clock) h.blocked h.trace)
    (Paired.grows_shows p _ _ _ _) rfl rfl rfl
  simp only [Twins.shows, ← h.output, ← h.clock]

/-- A value is printed in step. -/
theorem inStep_printValue (h : p.Paired) :
    InStep (Exec.printValue v) (Exec.printValue v) p SameEnd := by
  refine .look ?_
  rw [h.text_eq]
  refine .lift h (.refl _) ?_
  rintro _ text rfl
  exact (inStep_shows h (·.push text) id).bind fun _ hq _ _ _ => .pure hq ⟨rfl, trivial⟩

/-- Both clocks have shown the same so far, and go on alike. -/
theorem inStep_readClock (h : p.Paired) : InStep Exec.readClock Exec.readClock p SameValue := by
  refine .look ?_
  rw [h.clock]
  exact (inStep_shows h id Clock.next).bind fun _ hq _ _ _ => .pure hq ⟨rfl, trivial⟩

/-! ## Sequences and loops -/

/-- Arguments are evaluated in step. -/
theorem inStep_evaluateEach (he : EvaluatesInStep C evaluate)
    (hts : List.Forall₂ (C.Like .expression π) ts ts') :
    ∀ {p : Twins C} {done : List Value}, p.Paired → p.Here π → (∀ v ∈ done, p.Fits v) →
      InStep (Exec.evaluateEach evaluate done ts) (Exec.evaluateEach evaluate done ts') p
        SameValues := by
  induction hts with
  | nil =>
    intro p done h _ hdone
    exact .pure h ⟨rfl, fun v hv => hdone v (List.mem_reverse.1 hv)⟩
  | cons ht _ ih =>
    intro p done h hf hdone
    refine (he h hf ht).next h hf ?_
    rintro q _ v hg hq hf' ⟨rfl, hv⟩
    exact ih hq hf' (List.forall_mem_cons.2 ⟨hv, fun u hu => (hdone u hu).mono h hg⟩)

/-- Statements are executed in step. -/
theorem inStep_executeEach {execute : Tree → Exec Completion} (he : ExecutesInStep C execute)
    (hts : List.Forall₂ (C.Like .statement π) ts ts') :
    ∀ {p : Twins C}, p.Paired → p.Here π →
      InStep (Exec.executeEach execute ts) (Exec.executeEach execute ts') p SameEnd := by
  induction hts with
  | nil => exact fun h _ => .pure h ⟨rfl, trivial⟩
  | cons ht _ ih =>
    intro p h hf
    unfold Exec.executeEach
    rw [C.isNull_eq ht]
    split
    · exact ih h hf
    · refine (he h hf ht).next h hf ?_
      rintro q _ completion - hq hf' ⟨rfl, hfits⟩
      cases completion with
      | normal => exact ih hq hf'
      | returned v => exact .pure hq ⟨rfl, hfits⟩

/-- A loop runs in step, by induction on its rounds. -/
theorem inStep_repeatWhile {condition condition' : Exec Value} {body body' : Exec Completion}
    (hcondition : ∀ {p : Twins C}, p.Paired → p.Here π → InStep condition condition' p SameValue)
    (hbody : ∀ {p : Twins C}, p.Paired → p.Here π → InStep body body' p SameEnd) (rounds : Nat) :
    ∀ {p : Twins C}, p.Paired → p.Here π →
      InStep (Exec.repeatWhile condition body rounds) (Exec.repeatWhile condition' body' rounds) p
        SameEnd := by
  induction rounds with
  | zero => exact fun h _ => .throw h trivial
  | succ rounds ih =>
    intro p h hf
    refine (hcondition h hf).next h hf ?_
    rintro p₁ _ v - h₁ hf₁ ⟨rfl, -⟩
    split
    · refine (hbody h₁ hf₁).next h₁ hf₁ ?_
      rintro p₂ _ completion - h₂ hf₂ ⟨rfl, hfits⟩
      cases completion with
      | normal => exact ih h₂ hf₂
      | returned v => exact .pure h₂ ⟨rfl, hfits⟩
    · exact .pure h₁ ⟨rfl, trivial⟩

theorem inScope_of_ok {a : α} (h : x { m with current := r } = .ok a m₁) :
    Exec.inScope r x m = .ok a { m₁ with current := m.current } := by
  unfold Exec.inScope
  simp only [h]

theorem inScope_of_error (h : x { m with current := r } = .error e m₁) :
    Exec.inScope r x m = .error e { m₁ with current := m.current } := by
  unfold Exec.inScope
  simp only [h]

/-- Each machine goes to a scope and back. -/
theorem inStep_inScope {x x' : Exec Completion} (hx : InStep x x' (p.inScopes r r') SameEnd) :
    InStep (Exec.inScope r x) (Exec.inScope r' x') p SameEnd := by
  have hin := Paired.grows_inScopes p r r'
  cases hx with
  | @result q a a' left right grows paired holds =>
    have hback := Paired.grows_inScopes q p.left.current p.right.current
    exact .result (q := q.inScopes p.left.current p.right.current) (inScope_of_ok left)
      (inScope_of_ok right) ((hin.trans grows).trans hback)
      (paired.inScopes _ _) ⟨⟨rfl, rfl⟩, holds.2.1, holds.2.2.mono paired hback⟩
  | @stop q e e' left right like grows paired =>
    have hback := Paired.grows_inScopes q p.left.current p.right.current
    exact .stop (q := q.inScopes p.left.current p.right.current) (inScope_of_error left)
      (inScope_of_error right) like ((hin.trans grows).trans hback) (paired.inScopes _ _)

/-- An overflow is reported at the token, and anything else stays as it is. -/
theorem inStep_overflowAt {x x' : Exec Value} (hx : InStep x x' p SameValue)
    (hs : C.change.Words slot slot') :
    InStep (Exec.overflowAt slot x) (Exec.overflowAt slot' x') p SameValue := by
  unfold Exec.overflowAt
  cases hx with
  | result left right grows paired holds =>
    exact .result (by rw [left]) (by rw [right]) grows paired holds
  | @stop q e e' left right like grows paired =>
    cases e with
    | overflow =>
      cases e' with
      | overflow =>
        obtain ⟨e, e', hlike, he, he'⟩ := exists_raise (α := Value) .stackOverflow hs.names
        exact .stop (by rw [left]; exact he _) (by rw [right]; exact he' _) hlike grows paired
      | _ => exact like.elim
    | _ =>
      cases e' with
      | overflow => exact like.elim
      | _ => exact .stop (by rw [left]) (by rw [right]) like grows paired

/-! ## Classes -/

/-- A superclass is evaluated in step. -/
theorem inStep_superclass (he : EvaluatesInStep C evaluate) {parent parent' : Tree} (h : p.Paired)
    (hf : p.Here π) (hp : Optional C.Like π .expression parent parent')
    (hs : SameFault (fun n n' => ∃ marked, C.change.Names marked n n') parent.nameSlot
      parent'.nameSlot) :
    InStep (Exec.superclass evaluate parent) (Exec.superclass evaluate parent') p fun q c c' =>
      c' = c ∧ c.isNone = parent.isNull ∧ ∀ k, c = some k → q.Fits (.cls k) := by
  unfold Exec.superclass
  rw [hp.isNull]
  cases hn : parent.isNull with
  | true => exact .pure h ⟨rfl, rfl, fun _ hk => by cases hk⟩
  | false =>
    refine (he h hf (hp.like hn)).bind ?_
    rintro q _ v - hq - - ⟨rfl, hv⟩
    cases v with
    | cls c =>
      refine .pure hq ⟨rfl, rfl, fun k hk => ?_⟩
      cases hk
      exact hv
    | _ =>
      refine .lift hq hs ?_
      rintro slot slot' ⟨marked, hslot⟩
      exact inStep_raise hq hslot

/-- All methods of a class that is made are without an object. -/
def SameMethods (p : Twins C) (made made' : Bindings Name FunctionRef) : Prop :=
  made' = made ∧ ∀ {name r}, made.find? name = some r → p.Has true r

theorem sameMethods_empty (p : Twins C) : p.SameMethods .empty .empty :=
  ⟨rfl, fun h => by cases h⟩

/-- Methods are made in step. -/
theorem inStep_methodsOf (hts : List.Forall₂ (C.Like .method (π.inside false)) ts ts') :
    ∀ {p : Twins C} {done : Bindings Name FunctionRef}, p.Paired → p.Here π →
      p.SameMethods done done →
      InStep (Exec.methodsOf done ts) (Exec.methodsOf done ts') p SameMethods := by
  induction hts with
  | nil => exact fun h _ hdone => .pure h hdone
  | @cons t t' ts ts' ht _ ih =>
    intro p done h hf hdone
    refine .lift h (C.method ht).name fun {token token'} hl => ?_
    have hname : token'.name = token.name := by
      unfold Token.name
      rw [hl]
    rw [hname, hl]
    refine .lift h (.refl token.name) ?_
    rintro _ key rfl
    refine .look ?_
    have hk : p.Corresponding true
        { name := key, declaration := t, closure := p.left.current,
          isInitializer := token.lexeme == .str "init" }
        { name := key, declaration := t', closure := p.right.current,
          isInitializer := token.lexeme == .str "init" } :=
      ⟨rfl, rfl, π, hf, ht⟩
    refine (inStep_addFunction h hk).next h hf ?_
    rintro q _ r hg hq hf' ⟨rfl, hr⟩
    refine ih hq hf' ⟨rfl, fun {other k} hfind => ?_⟩
    rw [Bindings.find?_insert] at hfind
    split at hfind
    · cases hfind
      exact hr
    · exact (hdone.2 hfind).mono h hg

/-- The scope that a class with the given superclass is left for. -/
def outOfSuper (m : Machine) : Option ClassRef → ScopeRef
  | none => m.current
  | some _ => (m.store.enclosing? m.current).getD m.current

/-- The machines in a new scope that binds `super`. It is not marked. -/
def enterSuper (p : Twins C) (c : ClassRef) : Twins C :=
  ((p.addScope p.left.current p.right.current false).define ⟨p.left.store.scopes.size⟩
    (.ofText "super") (.cls c)).inScopes ⟨p.left.store.scopes.size⟩ ⟨p.right.store.scopes.size⟩

theorem enterSuper_right (p : Twins C) (c : ClassRef) :
    Exec.enterSuper (some c) p.right = .ok ⟨⟩ (p.enterSuper c).right := by
  simp only [enterSuper, inScopes, Twins.define, withStores,
    Paired.image_addScope_self p p.left.current p.right.current, Change.rename_super]
  rfl

/-- The scope that binds `super` is entered. From it, a class is left for where it was entered. -/
theorem runs_enterSuper (h : p.Paired) (hf : p.Here π) (hp : ∀ c, parent = some c → p.Fits (.cls c)) :
    Runs (Exec.enterSuper parent) (Exec.enterSuper parent) p fun q _ _ =>
      q.Here (if parent.isNone then π else π.inside false) ∧
        outOfSuper q.left parent = p.left.current ∧
        outOfSuper q.right parent = p.right.current := by
  cases parent with
  | none => exact .result rfl rfl (.refl p) h ⟨hf, rfl, rfl⟩
  | some c =>
    have hgrows₁ := Paired.grows_addScope p p.left.current p.right.current false
    have h₁ := h.addScope false hf.left hf.right
    have hreach₁ := hf.addScope h false
    have hgrows₂ := h₁.grows_define hreach₁.left (.ofText "super") (.cls c)
    have h₂ := h₁.define hreach₁.left (.ofText "super") ((hp c rfl).mono h hgrows₁)
    have hout (s : Store) (e a r : ScopeRef) (name : Name) :
        (((s.addScope (some e)).2.define r name (.cls c)).enclosing? ⟨s.scopes.size⟩).getD a =
          e := by
      rw [Store.enclosing?_define, Store.enclosing?_addScope_self]
      rfl
    exact .result (q := p.enterSuper c) rfl (enterSuper_right p c)
      ((hgrows₁.trans hgrows₂).trans (Paired.grows_inScopes _ _ _)) (h₂.inScopes _ _)
      ⟨(hreach₁.mono h₁ hgrows₂).inScopes _ _, hout _ _ _ _ _, hout _ _ _ _ _⟩

theorem runs_leaveSuper (parent : Option ClassRef) (h : p.Paired) :
    Runs (Exec.leaveSuper parent) (Exec.leaveSuper parent) p fun q _ _ =>
      q = p.inScopes (outOfSuper p.left parent) (outOfSuper p.right parent) := by
  cases parent with
  | none => exact .result rfl rfl (.refl p) h rfl
  | some c =>
    exact .result (q := p.inScopes (outOfSuper p.left (some c)) (outOfSuper p.right (some c))) rfl
      rfl (Paired.grows_inScopes p _ _) (h.inScopes _ _) rfl

/-- What is done in the scope of `super` adds no link to it, so that it is left for the scope where
it was entered. -/
theorem inStep_insideSuper {γ δ : Type} {x x' : Exec γ} {k k' : γ → Exec δ} {P : Twins C → γ → Prop}
    {Q : Twins C → δ → δ → Prop} (h : p.Paired) (hf : p.Here π)
    (hp : ∀ c, parent = some c → p.Fits (.cls c))
    (hx : ∀ {q}, p.Grows q → q.Paired → q.Here (if parent.isNone then π else π.inside false) →
      InStep x x' q fun u a a' => a' = a ∧ P u a) (hk : ∀ {q : Twins C} a, q.Paired → q.Here π →
      (∃ u : Twins C, u.Paired ∧ u.Grows q ∧ P u a) → InStep (k a) (k' a) q Q) :
    InStep (Exec.enterSuper parent >>= fun _ => x >>= fun a =>
        Exec.leaveSuper parent >>= fun _ => k a)
      (Exec.enterSuper parent >>= fun _ => x' >>= fun a =>
        Exec.leaveSuper parent >>= fun _ => k' a) p Q := by
  refine Runs.bind (runs_enterSuper h hf hp) ?_
  rintro p₁ _ _ hg₁ h₁ ⟨hf₁, hout₁, hout₁'⟩
  refine Runs.bind (hx hg₁ h₁ hf₁) ?_
  rintro p₂ _ a hg₂ h₂ ⟨⟨hl₂, hr₂⟩, rfl, ha⟩
  have hout {m m₁ : Machine} (hg : m₁.store.Grows m.store) (hc : m.current = m₁.current)
      (hlt : m₁.current.index < m₁.store.scopes.size) :
      outOfSuper m parent = outOfSuper m₁ parent := by
    cases parent with
    | none => exact hc
    | some c => simp only [outOfSuper, hc, hg.enclosing hlt]
  refine Runs.bind (runs_leaveSuper parent h₂) ?_
  rintro p₃ _ _ - h₃ rfl
  rw [hout hg₂.left hl₂ hf₁.left, hout hg₂.right hr₂ hf₁.right, hout₁, hout₁'] at h₃ ⊢
  exact hk a h₃ ((hf.mono h (hg₁.trans hg₂)).inScopes _ _)
    ⟨p₂, h₂, Paired.grows_inScopes p₂ _ _, ha⟩

theorem classText_same {made : Bindings Name FunctionRef} (h : p.Paired) :
    Exec.classText p.right name parent made = Exec.classText p.left name parent made := by
  unfold Exec.classText Store.className
  cases parent with
  | none => rfl
  | some c => simp only [h.class?_eq]

/-- A class is made in step. -/
theorem inStep_makeClass (name : Name) {methods methods' : Tree} (h : p.Paired) (hf : p.Here π)
    (hp : ∀ c, parent = some c → p.Fits (.cls c))
    (hm : C.Like .members (π.inside false) methods methods') :
    InStep (Exec.makeClass name parent methods) (Exec.makeClass name parent methods') p
      fun q made made' => made' = made ∧ q.Fits (.cls made.2) := by
  refine .lift h (C.items rfl hm) fun hitems => ?_
  refine (inStep_methodsOf hitems h hf (sameMethods_empty p)).bind ?_
  rintro p₁ _ made hg₁ h₁ - - ⟨rfl, hmade⟩
  refine (inStep_addClass h₁ hmade fun hc => (hp _ hc).mono h hg₁).bind ?_
  rintro p₂ _ c - h₂ - - ⟨rfl, hc⟩
  exact .pure h₂ ⟨rfl, hc⟩

theorem inStep_bindClass (parent : Option ClassRef) (made : Bindings Name FunctionRef × ClassRef)
    (h : p.Paired) (hf : p.Here π) (h0 : π.number 0 = 0)
    (hn : name = C.change.rename (π.marks.headD false) name) (hc : p.Fits (.cls made.2)) :
    InStep (Exec.bindClass name parent made) (Exec.bindClass name parent made) p SameEnd := by
  refine (inStep_define h hf h0 hn hc).bind fun _ h₁ _ _ _ => ?_
  refine (inStep_note h₁ ?_).bind fun _ h₂ _ _ _ => .pure h₂ ⟨rfl, trivial⟩
  rw [classText_same h₁]
  exact sameLine_refl _

/-- A class is declared in step. -/
theorem inStep_declareClass (he : EvaluatesInStep C evaluate)
    {parent parent' methods methods' : Tree} (h : p.Paired) (hf : p.Here π) (h0 : π.number 0 = 0)
    (hs : C.change.Words slot slot') (hn : C.change.Names (π.marks.headD false) slot slot')
    (hp : Optional C.Like π .expression parent parent')
    (hslot : SameFault (fun n n' => ∃ marked, C.change.Names marked n n') parent.nameSlot
      parent'.nameSlot) (hm : C.Like .members (π.aroundMethods parent) methods methods') :
    InStep (Exec.declareClass evaluate slot parent methods)
      (Exec.declareClass evaluate slot' parent' methods') p SameEnd := by
  rw [Exec.declareClass_eq, Exec.declareClass_eq]
  refine (inStep_superclass he h hf hp hslot).next h hf ?_
  rintro p₁ _ c - h₁ hf₁ ⟨rfl, hnone, hc⟩
  refine .lift h₁ (sameFault_declared hs hn) ?_
  rintro _ key ⟨rfl, hkey⟩
  refine (inStep_define (v := .nil) h₁ hf₁ h0 hkey trivial).next h₁ hf₁
    fun {p₂ _ _} hg₂ h₂ hf₂ _ => ?_
  have hc₂ : ∀ k, c = some k → p₂.Fits (.cls k) := fun k hk => (hc k hk).mono h₁ hg₂
  unfold Setting.aroundMethods at hm
  rw [← hnone] at hm
  refine inStep_insideSuper h₂ hf₂ hc₂
    (fun hg h hf => inStep_makeClass key h hf (fun k hk => (hc₂ k hk).mono h₂ hg) hm) ?_
  rintro q made hq hf' ⟨u, hu, hgrows, hmade⟩
  exact inStep_bindClass c made hq hf' h0 hkey (hmade.mono hu hgrows)

/-! ## The four walks -/

theorem fits_ofLiteral (value : Tree) (serial : Option Nat) : p.Fits (.ofLiteral value serial) := by
  unfold Value.ofLiteral
  split <;> trivial

/-- Expressions run in step, from what one level less of room gives. -/
theorem evaluatesInStep_succ (hevaluate : EvaluatesInStep C (Exec.evaluate rounds room))
    (hcall : CallsInStep C (Exec.call rounds room)) :
    EvaluatesInStep C (Exec.evaluate rounds (room + 1)) := by
  intro p π t t' h hf ht
  cases C.expression ht with
  | misplaced left right =>
    rw [left, right]
    exact .throw h rfl
  | literal =>
    unfold Exec.evaluate
    exact .pure h ⟨rfl, fits_ofLiteral _ _⟩
  | grouping he =>
    unfold Exec.evaluate
    exact hevaluate h hf he
  | unary ho he =>
    unfold Exec.evaluate
    refine (hevaluate h hf he).bind ?_
    rintro p₁ _ v - h₁ - - ⟨rfl, -⟩
    exact inStep_unary h₁ ho
  | binary hl ho hr =>
    unfold Exec.evaluate
    refine (hevaluate h hf hl).next h hf ?_
    rintro p₁ _ v - h₁ hf₁ ⟨rfl, -⟩
    refine (hevaluate h₁ hf₁ hr).bind ?_
    rintro p₂ _ u - h₂ - - ⟨rfl, -⟩
    exact inStep_binary h₂ ho
  | logical hl ho hr =>
    unfold Exec.evaluate
    refine (hevaluate h hf hl).next h hf ?_
    rintro p₁ _ v - h₁ hf₁ ⟨rfl, hv⟩
    refine (inStep_decidesLeft h₁ ho).next h₁ hf₁ ?_
    rintro p₂ _ decided hg₂ h₂ hf₂ rfl
    cases decided with
    | true => exact .pure h₂ ⟨rfl, hv.mono h₁ hg₂⟩
    | false => exact hevaluate h₂ hf₂ hr
  | ident hd hn | thisRef hd hn =>
    subst hd
    unfold Exec.evaluate
    exact inStep_lookUp h hf hn
  | assign hd hn he =>
    subst hd
    unfold Exec.evaluate
    refine (hevaluate h hf he).next h hf ?_
    rintro p₁ _ v - h₁ hf₁ ⟨rfl, hv⟩
    refine (inStep_assign h₁ hf₁ hn hv).bind fun hg₂ h₂ _ _ _ => ?_
    exact .pure h₂ ⟨rfl, hv.mono h₁ hg₂⟩
  | call hc hp ha =>
    unfold Exec.evaluate
    refine (hevaluate h hf hc).next h hf ?_
    rintro p₁ _ v - h₁ hf₁ ⟨rfl, hv⟩
    refine .lift h₁ (C.items rfl ha) fun hitems => ?_
    refine (inStep_evaluateEach hevaluate hitems h₁ hf₁ (by simp)).bind ?_
    rintro p₂ _ values hg₂ h₂ - - ⟨rfl, hvalues⟩
    exact inStep_overflowAt (hcall h₂ (hv.mono h₁ hg₂) hvalues hp) hp
  | getField ho hn =>
    unfold Exec.evaluate
    refine (hevaluate h hf ho).bind ?_
    rintro p₁ _ v - h₁ - - ⟨rfl, -⟩
    cases v with
    | object o => exact inStep_property h₁ hn
    | _ => exact inStep_raise h₁ hn.names
  | setField ho hn he =>
    unfold Exec.evaluate
    refine (hevaluate h hf ho).next h hf ?_
    rintro p₁ _ v - h₁ hf₁ ⟨rfl, -⟩
    cases v with
    | object o =>
      refine (hevaluate h₁ hf₁ he).bind ?_
      rintro p₂ _ u - h₂ - - ⟨rfl, hu⟩
      refine (inStep_setField h₂ hn hu).bind fun hg₃ h₃ _ _ _ => ?_
      exact .pure h₃ ⟨rfl, hu.mono h₂ hg₃⟩
    | _ => exact inStep_raise h₁ hn.names
  | superRef hd hsuper hm =>
    subst hd
    unfold Exec.evaluate
    exact inStep_superMethod h hf hsuper hm

theorem conditionText_same (h : p.Paired) :
    Exec.conditionText p.right v = Exec.conditionText p.left v := by
  unfold Exec.conditionText
  rw [h.text_eq]

/-- Statements run in step, from what one level less of room gives. -/
theorem executesInStep_succ (hevaluate : EvaluatesInStep C (Exec.evaluate rounds room))
    (hexecute : ExecutesInStep C (Exec.execute rounds room))
    (hblock : BlocksInStep C (Exec.executeBlock rounds room)) :
    ExecutesInStep C (Exec.execute rounds (room + 1)) := by
  intro p π t t' h hf ht
  cases C.statement ht with
  | misplaced left right =>
    rw [left, right]
    exact .throw h rfl
  | exprStmt he =>
    unfold Exec.execute
    refine (hevaluate h hf he).bind fun _ h₁ _ _ _ => ?_
    exact .pure h₁ ⟨rfl, trivial⟩
  | printStmt he =>
    unfold Exec.execute
    refine (hevaluate h hf he).bind ?_
    rintro p₁ _ v - h₁ - - ⟨rfl, -⟩
    exact inStep_printValue h₁
  | @varDecl name name' e e' h0 hn he =>
    simp only [Exec.execute, he.isNull]
    cases hnull : e.isNull with
    | true => exact inStep_declareVar h hf h0 hn trivial
    | false =>
      refine (hevaluate h hf (he.like hnull)).next h hf ?_
      rintro p₁ _ v - h₁ hf₁ ⟨rfl, hv⟩
      exact inStep_declareVar h₁ hf₁ h0 hn hv
  | @block marked _ _ hitems =>
    unfold Exec.execute
    refine .look ((inStep_addScope h hf marked).bind fun _ h₁ _ _ hscope => ?_)
    exact hblock h₁ hscope hitems
  | @ifElse _ _ _ _ e e' hc hthen he =>
    unfold Exec.execute
    refine (hevaluate h hf hc).next h hf ?_
    rintro p₁ _ v - h₁ hf₁ ⟨rfl, -⟩
    have hline : SameLine C (Exec.conditionText p₁.left v) (Exec.conditionText p₁.right v) := by
      rw [conditionText_same h₁]
      exact sameLine_refl _
    refine (inStep_note h₁ hline).next h₁ hf₁ fun _ h₂ hf₂ _ => ?_
    rw [he.isNull]
    split
    · exact hexecute h₂ hf₂ hthen
    · cases hnull : e.isNull with
      | true => exact .pure h₂ ⟨rfl, trivial⟩
      | false => exact hexecute h₂ hf₂ (he.like hnull)
  | whileLoop hc hbody =>
    unfold Exec.execute
    exact inStep_repeatWhile (fun h hf => hevaluate h hf hc) (fun h hf => hexecute h hf hbody)
      rounds h hf
  | funDecl h0 hs hn hd =>
    unfold Exec.execute
    exact inStep_declareFunction h hf h0 hs hn hd
  | @returnStmt _ _ e e' he =>
    simp only [Exec.execute, he.isNull]
    cases hnull : e.isNull with
    | true => exact .pure h ⟨rfl, trivial⟩
    | false =>
      refine (hevaluate h hf (he.like hnull)).bind ?_
      rintro p₁ _ v - h₁ - - ⟨rfl, hv⟩
      exact .pure h₁ ⟨rfl, hv⟩
  | classDecl h0 hs hn hp hslot hm =>
    unfold Exec.execute
    exact inStep_declareClass hevaluate h hf h0 hs hn hp hslot hm

theorem blocksInStep_succ (hexecute : ExecutesInStep C (Exec.execute rounds room)) :
    BlocksInStep C (Exec.executeBlock rounds (room + 1)) := by
  intro p π t t' r r' h hr ht
  unfold Exec.executeBlock
  refine inStep_inScope (.lift (h.inScopes r r') (C.items rfl ht) fun hitems => ?_)
  exact inStep_executeEach hexecute hitems (h.inScopes r r') (hr.inScopes r r')

/-- Calls run in step, from what one level less of room gives. -/
theorem callsInStep_succ (hblock : BlocksInStep C (Exec.executeBlock rounds room))
    (hcall : CallsInStep C (Exec.call rounds room)) :
    CallsInStep C (Exec.call rounds (room + 1)) := by
  intro p v values paren paren' h hv hvalues hs
  unfold Exec.call
  cases v with
  | native n =>
    cases n with
    | clock =>
      exact (inStep_checkArity h hs _ _).bind fun _ h₁ _ _ _ => inStep_readClock h₁
  | function r => exact inStep_callFunction hblock h hv hvalues hs
  | cls c => exact inStep_callClass hcall h hvalues hs
  | _ => exact inStep_raise h hs.names

/-- Each walk over trees that may stand for each other goes in step. -/
theorem inStep_walks (C : Correspondence) (rounds room : Nat) :
    EvaluatesInStep C (Exec.evaluate rounds room) ∧ ExecutesInStep C (Exec.execute rounds room) ∧
    BlocksInStep C (Exec.executeBlock rounds room) ∧ CallsInStep C (Exec.call rounds room) := by
  induction room with
  | zero =>
    refine ⟨fun h _ _ => ?_, fun h _ _ => ?_, fun h _ _ => ?_, fun h _ _ _ => ?_⟩
    · unfold Exec.evaluate
      exact .throw h trivial
    · unfold Exec.execute
      exact .throw h trivial
    · unfold Exec.executeBlock
      exact .throw h trivial
    · unfold Exec.call
      exact .throw h trivial
  | succ room ih =>
    obtain ⟨hevaluate, hexecute, hblock, hcall⟩ := ih
    exact ⟨evaluatesInStep_succ hevaluate hcall, executesInStep_succ hevaluate hexecute hblock,
      blocksInStep_succ hexecute, callsInStep_succ hblock hcall⟩

end Steps

end Twins

end LoxLang
