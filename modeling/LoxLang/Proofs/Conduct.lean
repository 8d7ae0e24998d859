import LoxLang.Proofs.Receivers
import LoxLang.Proofs.Reports

/-!
# How a run conducts itself

Three things hold of a machine at every moment of a run. The functions in its store are declared
with tokens of the program. A scope binds `this` only if a method was bound to an object in it, and
nothing ever changes what it is bound to, since no declaration and no assignment has `this` for its
name. And such a method is an initializer exactly if its name is `init`. `Lawful` says so, and
`Onward` says what a later machine has in common with an earlier one.

Every walk over trees of the right form goes from a lawful machine to a lawful one, whatever it
gives and whatever stops it, and a runtime error that stops it is at the line of a token of the
program, an overflow apart (`conducts_walks`). The walks are those of the observed machine, so the
same holds of the machine at each visit.
-/

namespace LoxLang

/-! ## Trees of the right form -/

/-- The tree has the right form for its role, and its tokens have the property. -/
structure Proper (P : Token → Prop) (role : Role) (t : Tree) : Prop where
  wellFormed : WellFormed role t
  tokens : t.TokensFrom P

namespace Proper

variable {P : Token → Prop} {role role' : Role} {t u : Tree}

theorem formed (h : Proper P role t) : Formed role t :=
  h.wellFormed.formed

theorem child (h : Proper P role t) (i : Nat) (hr : role.inside t i = some role')
    (hu : t.children[i]? = some u) : Proper P role' u :=
  ⟨h.wellFormed.child i hr hu, h.tokens.child i hu⟩

theorem items {items : List Tree} (h : Proper P role (.list items))
    (hr : ∀ i, role.inside (.list items) i = some role') : ∀ t ∈ items, Proper P role' t := by
  intro t ht
  obtain ⟨i, hi⟩ := List.getElem?_of_mem ht
  exact h.child i (hr i) hi

/-- A slot that may hold nothing. -/
theorem optional (h : Proper P role t) (i : Nat) (hu : t.children[i]? = some u)
    (hr : role.inside t i = role'.optional u) (hn : ¬u.isNull = true) : Proper P role' u := by
  refine h.child i ?_ hu
  rw [hr, Role.optional, if_neg hn]

/-- A function that is declared by a statement has the form of a method. -/
theorem method {name params body : Tree} (h : Proper P .statement (.funDecl name params body)) :
    Proper P .method (.funDecl name params body) := by
  refine ⟨?_, h.tokens⟩
  have hbody : WellFormed .body body := h.wellFormed.child 2 rfl rfl
  cases h.formed with
  | funDecl hname hparams => exact fun S => .one (.method hname hparams) rfl (hbody _)

end Proper

/-! ## Lawful machines -/

/-- What is found after something was added at the end was there before, or is new. -/
theorem eq_some_of_getElem?_push {α : Type} {xs : Array α} {i : Nat} {a b : α}
    (h : (xs.push a)[i]? = some b) : xs[i]? = some b ∨ a = b := by
  rw [Array.getElem?_push] at h
  split at h
  · exact .inr (Option.some.inj h)
  · exact .inl h

/-- The function is declared under the name, and is an initializer exactly if this is `init`. -/
def Function.MethodNamed (f : Function) (s : String) : Prop :=
  ∃ token params body, f.declaration = .funDecl (.token token) params body ∧
    token.lexeme = .str s ∧ f.isInitializer = (s == "init")

namespace Store

/-- The store has grown, and in no scope that was there before `this` is bound anew. -/
structure Onward (s s' : Store) : Prop where
  grows : s.Grows s'
  receiver : ∀ {r : ScopeRef}, r.index < s.scopes.size →
    s'.bound? r (.ofText "this") = s.bound? r (.ofText "this")

/-- A function of the store: its closure is there, its declaration has the right form, and where
`this` is bound in its closure it is a method. -/
structure Fits (P : Token → Prop) (s : Store) (f : Function) : Prop where
  closure : f.closure.index < s.scopes.size
  declaration : Proper P .method f.declaration
  method : ∀ {v : Value}, s.bound? f.closure (.ofText "this") = some v → ∃ name, f.MethodNamed name

/-- The methods are there, under their names. -/
def Staffs (s : Store) (methods : Bindings Name FunctionRef) : Prop :=
  ∀ {name : String} {r : FunctionRef}, methods.find? (.ofText name) = some r →
    ∃ f, s.function? r = some f ∧ f.MethodNamed name

/-- A scope for declarations: it is there, and does not bind `this`. -/
structure Free (s : Store) (r : ScopeRef) : Prop where
  there : r.index < s.scopes.size
  unbound : s.bound? r (.ofText "this") = none

variable {P : Token → Prop} {s s' s'' : Store} {f : Function} {r : ScopeRef}

namespace Onward

theorem refl (s : Store) : s.Onward s := ⟨.refl s, fun _ => rfl⟩

theorem trans (h : s.Onward s') (h' : s'.Onward s'') : s.Onward s'' :=
  ⟨h.grows.trans h'.grows, fun hr =>
    (h'.receiver (Nat.lt_of_lt_of_le hr h.grows.scopes)).trans (h.receiver hr)⟩

theorem fits (h : s.Onward s') (hf : s.Fits P f) : s'.Fits P f :=
  ⟨Nat.lt_of_lt_of_le hf.closure h.grows.scopes, hf.declaration, fun hv =>
    hf.method ((h.receiver hf.closure).symm.trans hv)⟩

theorem staffs (h : s.Onward s') {methods : Bindings Name FunctionRef} (hm : s.Staffs methods) :
    s'.Staffs methods := by
  intro name r hr
  obtain ⟨f, hf, hname⟩ := hm hr
  exact ⟨f, h.grows.function hf, hname⟩

theorem free (h : s.Onward s') (hr : s.Free r) : s'.Free r :=
  ⟨Nat.lt_of_lt_of_le hr.there h.grows.scopes, (h.receiver hr.there).trans hr.unbound⟩

end Onward

/-! One lemma for each way to change a store. -/

/-- Nothing is defined in a scope that is not there. -/
theorem define_of_size_le (h : s.scopes.size ≤ r.index) (name : Name) (v : Value) :
    s.define r name v = s := by
  have hmodify (g : Scope → Scope) : s.scopes.modify r.index g = s.scopes := by
    refine Array.ext (by simp) fun i hi hi' => ?_
    rw [Array.getElem_modify, if_neg (by omega)]
  rw [define, hmodify]

theorem onward_define {name : Name} (hn : (name == Name.ofText "this") = false) (r : ScopeRef)
    (v : Value) : s.Onward (s.define r name v) := by
  by_cases h : r.index < s.scopes.size
  · refine ⟨grows_define h name v, fun _ => ?_⟩
    rw [bound?_define s h, hn]
    simp
  · rw [define_of_size_le (Nat.le_of_not_lt h)]
    exact .refl s

theorem onward_addScope (enclosing : Option ScopeRef) : s.Onward (s.addScope enclosing).2 :=
  ⟨grows_addScope s enclosing, fun _ => bound?_addScope ..⟩

theorem onward_addFunction (f : Function) : s.Onward (s.addFunction f).2 :=
  ⟨grows_addFunction s f, fun _ => rfl⟩

theorem onward_addClass (k : Class) : s.Onward (s.addClass k).2 :=
  ⟨grows_addClass s k, fun _ => rfl⟩

theorem onward_addObject (o : Object) : s.Onward (s.addObject o).2 :=
  ⟨grows_addObject s o, fun _ => rfl⟩

theorem onward_setField (o : ObjectRef) (name : Name) (v : Value) :
    s.Onward (s.setField o name v) :=
  ⟨grows_setField s o name v, fun _ => rfl⟩

/-- A scope is made to bind `this`. -/
theorem onward_addReceiver (enclosing : Option ScopeRef) (v : Value) :
    s.Onward ((s.addScope enclosing).2.define (s.addScope enclosing).1 (.ofText "this") v) := by
  have hthere : (s.addScope enclosing).1.index < (s.addScope enclosing).2.scopes.size := by
    simp [addScope]
  refine ⟨(grows_addScope s enclosing).trans (grows_define hthere _ _), fun {r} hr => ?_⟩
  have hne : (s.addScope enclosing).1 ≠ r := by
    rintro rfl
    exact Nat.lt_irrefl _ hr
  rw [bound?_define _ hthere, if_neg fun h => hne h.1, bound?_addScope]

theorem lookupAt_zero {name : Name} {v : Value} (h : s.bound? r name = some v) :
    s.lookupAt 0 r name = .ok v := by
  refine lookupAt_of_chain ?_ h
  rw [chain_eq]
  rfl

theorem staffs_empty : s.Staffs .empty :=
  fun hr => by simp at hr

theorem free_addScope (enclosing : Option ScopeRef) :
    (s.addScope enclosing).2.Free (s.addScope enclosing).1 := by
  refine ⟨by simp [addScope], ?_⟩
  rw [bound?_addScope]
  exact bound?_eq_none_of_size_le (Nat.le_refl _) _

end Store

/-- The current scope is one for declarations, the functions are as declared, and the classes have
their methods. -/
structure Machine.Lawful (P : Token → Prop) (m : Machine) : Prop where
  current : m.store.Free m.current
  function : ∀ {g : FunctionRef} {f : Function}, m.store.function? g = some f → m.store.Fits P f
  cls : ∀ {c : ClassRef} {k : Class}, m.store.class? c = some k → m.store.Staffs k.methods

namespace Machine.Lawful

variable {P : Token → Prop} {m m' : Machine} {f : Function}

/-- A change that makes no function and no class. -/
theorem of_onward (h : m.Lawful P) (ho : m.store.Onward m'.store) (hc : m'.current = m.current)
    (hf : m'.store.functions = m.store.functions) (hk : m'.store.classes = m.store.classes) :
    m'.Lawful P := by
  refine ⟨hc ▸ ho.free h.current, fun {g f} hg => ho.fits (h.function (g := g) ?_),
    fun {c k} hc => ho.staffs (h.cls (c := c) ?_)⟩
  · rwa [Store.function?, hf] at hg
  · rwa [Store.class?, hk] at hc

theorem enter (h : m.Lawful P) {r : ScopeRef} (hr : m.store.Free r) :
    ({ m with current := r } : Machine).Lawful P :=
  ⟨hr, h.function, h.cls⟩

/-- A function that is made in the current scope. -/
theorem fits (h : m.Lawful P) (hc : f.closure = m.current) (hf : Proper P .method f.declaration) :
    m.store.Fits P f := by
  refine ⟨hc ▸ h.current.there, hf, fun hv => ?_⟩
  rw [hc, h.current.unbound] at hv
  cases hv

theorem addFunction (h : m.Lawful P) (hf : m.store.Fits P f) :
    ({ m with store := (m.store.addFunction f).2 } : Machine).Lawful P := by
  have ho := Store.onward_addFunction (s := m.store) f
  refine ⟨ho.free h.current, fun {g f'} hg => ?_, fun hk => ho.staffs (h.cls hk)⟩
  rcases eq_some_of_getElem?_push hg with hg | rfl
  · exact ho.fits (h.function (g := g) hg)
  · exact ho.fits hf

theorem addClass (h : m.Lawful P) {k : Class} (hk : m.store.Staffs k.methods) :
    ({ m with store := (m.store.addClass k).2 } : Machine).Lawful P := by
  have ho := Store.onward_addClass (s := m.store) k
  refine ⟨ho.free h.current, fun hf => ho.fits (h.function hf), fun {c k'} hc => ?_⟩
  rcases eq_some_of_getElem?_push hc with hc | rfl
  · exact ho.staffs (h.cls (c := c) hc)
  · exact ho.staffs hk

/-- A method that is bound to an object is still a method under its name. -/
theorem bindMethod (h : m.Lawful P) {r : FunctionRef} {name : String}
    (hf : m.store.function? r = some f) (hname : f.MethodNamed name) (v : Value) :
    m.store.Onward (m.store.bindMethod r v).2 ∧
      ({ m with store := (m.store.bindMethod r v).2 } : Machine).Lawful P := by
  have ho := Store.onward_addReceiver (s := m.store) (some f.closure) v
  have hfree := Store.free_addScope (s := m.store) (some f.closure)
  rw [Store.bindMethod, hf]
  refine ⟨ho.trans (Store.onward_addFunction _), ?_⟩
  let opened : Machine := { m with
    store := (m.store.addScope (some f.closure)).2.define (m.store.addScope (some f.closure)).1
      (.ofText "this") v }
  have hopened : opened.Lawful P := h.of_onward ho rfl rfl rfl
  refine hopened.addFunction ⟨?_, (h.function hf).declaration, fun _ => ⟨name, hname⟩⟩
  rw [Store.size_define]
  exact hfree.there

end Machine.Lawful

/-! ## Steps of the observed machine -/

/-- The stop is no runtime error, or an overflow, or it is at the line of a token with the
property. -/
def Stop.Cites (P : Token → Prop) : Stop → Prop
  | .runtime error => error.cause ≠ .stackOverflow → ∃ t, P t ∧ error.line = t.line
  | _ => True

/-- The machine was lawful at the visit, the tree has the right form, and the store has gone on
since. -/
structure Visit.Attested (P : Token → Prop) (v : Visit) (s : Store) : Prop where
  lawful : v.machine.Lawful P
  proper : ∃ role, Proper P role v.tree
  onward : v.machine.store.Onward s

/-- What a later state has in common with an earlier one. -/
structure Watched.Onward (P : Token → Prop) (w w' : Watched) : Prop where
  lawful : w'.machine.Lawful P
  store : w.machine.store.Onward w'.machine.store
  visits : ∀ v ∈ w'.visits, v ∈ w.visits ∨ v.Attested P w'.machine.store

/-- From a lawful machine the computation goes to a lawful one, however it ends. -/
def Goes {α : Type} (P : Token → Prop) (x : Watch α) (w : Watched) (Q : α → Watched → Prop) :
    Prop :=
  w.machine.Lawful P → Ends x w (fun a w' => w.Onward P w' ∧ Q a w') fun e w' =>
    w.Onward P w' ∧ e.Cites P

/-- The computation also ends in the scope where it has begun. -/
def Conducts {α : Type} (P : Token → Prop) (x : Watch α) (w : Watched) : Prop :=
  Goes P x w fun _ w' => w'.machine.current = w.machine.current

section Rules

variable {P : Token → Prop} {α β : Type} {x : Watch α} {f : α → Watch β} {w w' w'' : Watched}
  {Q Q' : α → Watched → Prop} {R : β → Watched → Prop}

theorem Visit.Attested.mono {v : Visit} {s s' : Store} (h : v.Attested P s) (hs : s.Onward s') :
    v.Attested P s' :=
  ⟨h.lawful, h.proper, h.onward.trans hs⟩

namespace Watched.Onward

theorem refl (h : w.machine.Lawful P) : w.Onward P w :=
  ⟨h, .refl _, fun _ => .inl⟩

theorem trans (h : w.Onward P w') (h' : w'.Onward P w'') : w.Onward P w'' := by
  refine ⟨h'.lawful, h.store.trans h'.store, fun v hv => ?_⟩
  rcases h'.visits v hv with hv | hv
  · exact (h.visits v hv).imp_right fun hv => hv.mono h'.store
  · exact .inr hv

/-- A change of the machine alone. -/
theorem machine {m : Machine} (h : m.Lawful P) (hs : w.machine.store.Onward m.store) :
    w.Onward P { w with machine := m } :=
  ⟨h, hs, fun _ => .inl⟩

end Watched.Onward

variable {a : α} {r : Except Fault α}

namespace Goes

theorem pure {a : α} (h : Q a w) : Goes P (pure a) w Q :=
  fun hw => Ends.pure ⟨.refl hw, h⟩

theorem throw {e : Stop} (he : e.Cites P) : Goes P (throw e : Watch α) w Q :=
  fun hw => Ends.throw ⟨.refl hw, he⟩

theorem imp (h : Goes P x w Q) (hQ : ∀ a w', w.Onward P w' → Q a w' → Q' a w') : Goes P x w Q' :=
  fun hw => Ends.imp (h hw) (fun _ _ ⟨ho, hq⟩ => ⟨ho, hQ _ _ ho hq⟩) fun _ _ he => he

theorem bind (hx : Goes P x w Q) (hf : ∀ a w', w.Onward P w' → Q a w' → Goes P (f a) w' R) :
    Goes P (x >>= f) w R := by
  intro hw
  refine Ends.bind (Ends.imp (hx hw) (fun _ _ h => h) fun _ _ h => h) fun a w' ⟨ho, hq⟩ => ?_
  exact Ends.imp (hf a w' ho hq ho.lawful) (fun _ _ ⟨ho', hr⟩ => ⟨ho.trans ho', hr⟩)
    fun _ _ ⟨ho', he⟩ => ⟨ho.trans ho', he⟩

/-- The machine may be taken for lawful. -/
theorem lawful (h : w.machine.Lawful P → Goes P x w Q) : Goes P x w Q :=
  fun hw => h hw hw

/-- A look at the record. -/
theorem look {f : Watched → Watch β} (hf : Goes P (f w) w R) : Goes P (get >>= f) w R :=
  hf

/-- A look at the machine. -/
theorem lookMachine {f : Machine → Watch β} (hf : Goes P (f w.machine) w R) :
    Goes P (Watch.plain get >>= f) w R :=
  hf

theorem homeOf {r : FunctionRef} {f : Home → Watch β} (hf : ∀ home, Goes P (f home) w R) :
    Goes P (Watch.homeOf r >>= f) w R :=
  hf _

theorem lift (hf : ∀ a, r = .ok a → Goes P (f a) w R) :
    Goes P (Watch.plain (Exec.lift r) >>= f) w R := by
  cases r with
  | ok a => exact hf a rfl
  | error fault => exact fun hw => Ends.of_error rfl ⟨.refl hw, trivial⟩

/-- A step with a known result. -/
theorem ok (hx : x w = .ok a w') (ho : w.machine.Lawful P → w.Onward P w') (hq : Q a w') :
    Goes P x w Q :=
  fun hw => Ends.of_ok hx ⟨ho hw, hq⟩

/-! Steps of the machine that are made of several ones. -/

variable {y : Exec α} {g : α → Exec β}

theorem plainBind (hy : Goes P (Watch.plain y) w Q)
    (hg : ∀ a w', w.Onward P w' → Q a w' → Goes P (Watch.plain (g a)) w' R) :
    Goes P (Watch.plain (y >>= g)) w R := by
  rw [Watch.plain_bind]
  exact hy.bind hg

theorem plainLook {g : Machine → Exec β} (hg : Goes P (Watch.plain (g w.machine)) w R) :
    Goes P (Watch.plain (get >>= g)) w R :=
  hg

theorem plainLift (hg : ∀ a, r = .ok a → Goes P (Watch.plain (g a)) w R) :
    Goes P (Watch.plain (Exec.lift r >>= g)) w R := by
  rw [Watch.plain_bind]
  exact lift hg

theorem plainPure (h : Q a w) : Goes P (Watch.plain (Pure.pure a)) w Q :=
  ok rfl .refl h

theorem plainThrow {e : Stop} (he : e.Cites P) : Goes P (Watch.plain (MonadExcept.throw e)) w Q :=
  fun hw => Ends.of_error rfl ⟨.refl hw, he⟩

end Goes

/-- One step after the other, each of which ends in the scope where it has begun. -/
theorem Conducts.bind (hx : Conducts P x w)
    (hf : ∀ a w', w.Onward P w' → w'.machine.current = w.machine.current → Conducts P (f a) w') :
    Conducts P (x >>= f) w :=
  Goes.bind hx fun a w' ho hc => (hf a w' ho hc).imp fun _ _ _ hc' => hc'.trans hc

theorem Conducts.andThen (hx : Conducts P x w) (hf : ∀ a w', Conducts P (f a) w') :
    Conducts P (x >>= f) w :=
  hx.bind fun a w' _ _ => hf a w'

theorem Conducts.plainThen {y : Exec α} {g : α → Exec β} (hy : Conducts P (Watch.plain y) w)
    (hg : ∀ a w', Conducts P (Watch.plain (g a)) w') : Conducts P (Watch.plain (y >>= g)) w := by
  rw [Watch.plain_bind]
  exact hy.andThen hg

end Rules

/-! ## Reading -/

variable {operator : Tree} {ts : List Tree}

section Steps

variable {P : Token → Prop} {w : Watched} {α β : Type} {slot t : Tree} {a : Token} {f : Function}
  {name : Name}

/-- The slot holds a token with the property. -/
def Tree.Cited (P : Token → Prop) (t : Tree) : Prop :=
  ∃ a, t = .token a ∧ P a

theorem Tree.IsName.cited (h : t.IsName) (ht : t.TokensFrom P) : t.Cited P := by
  obtain ⟨a, _, rfl, -, -⟩ := h
  exact ⟨a, rfl, ht.asToken rfl⟩

theorem Tree.IsWord.cited {word : String} (h : t.IsWord word) (ht : t.TokensFrom P) :
    t.Cited P := by
  obtain ⟨a, rfl, -⟩ := h
  exact ⟨a, rfl, ht.asToken rfl⟩

theorem Tree.TokensFrom.cited (h : (Tree.token a).TokensFrom P) : (Tree.token a).Cited P :=
  ⟨a, rfl, h.asToken rfl⟩

theorem Tree.Cited.asToken (h : t.Cited P) (ha : t.asToken = .ok a) : P a := by
  obtain ⟨b, rfl, hb⟩ := h
  cases ha
  exact hb

variable {Q : α → Watched → Prop}

theorem goes_raise (h : slot.Cited P) (cause : RuntimeCause) :
    Goes P (Watch.plain (Exec.raise slot cause : Exec α)) w Q := by
  obtain ⟨a, rfl, ha⟩ := h
  exact .plainThrow fun _ => ⟨a, ha, rfl⟩

theorem conducts_lift (r : Except Fault α) : Conducts P (Watch.plain (Exec.lift r)) w := by
  cases r with
  | ok a => exact .plainPure rfl
  | error fault => exact .plainThrow trivial

theorem conducts_orRaise (h : slot.Cited P) (r : Except RuntimeCause α) :
    Conducts P (Watch.plain (Exec.orRaise slot r)) w := by
  cases r with
  | ok a => exact .plainPure rfl
  | error cause => exact goes_raise h cause

theorem conducts_unary (h : operator.Cited P) (right : Value) :
    Conducts P (Watch.plain (Exec.unary operator right)) w :=
  .plainLift fun _ _ => conducts_orRaise h _

theorem conducts_binary (h : operator.Cited P) (left right : Value) :
    Conducts P (Watch.plain (Exec.binary operator left right)) w :=
  .plainLift fun _ _ => conducts_orRaise h _

theorem conducts_decidesLeft (operator : Tree) (left : Value) :
    Conducts P (Watch.plain (Exec.decidesLeft operator left)) w :=
  .plainLift fun _ _ => .plainPure rfl

theorem conducts_checkArity {paren : Tree} (h : paren.Cited P) (expected got : Nat) :
    Conducts P (Watch.plain (Exec.checkArity paren expected got)) w := by
  unfold Exec.checkArity
  split
  · exact .plainPure rfl
  · exact goes_raise h _

/-- A name is looked up. Only the name is cited. -/
theorem conducts_lookUp (h : slot.Cited P) (depth : Option Nat) :
    Conducts P (Watch.plain (Exec.lookUp slot depth)) w := by
  refine .plainLift fun a ha => .plainLift fun name _ => .plainLook ?_
  cases depth with
  | some distance => exact conducts_lift _
  | none =>
    show Conducts P (Watch.plain (Exec.orStop _)) w
    unfold Store.lookup
    cases w.machine.store.lookup? w.machine.globals name with
    | some value => exact .plainPure rfl
    | none => exact .plainThrow fun _ => ⟨a, h.asToken ha, rfl⟩

theorem goes_functionAt (r : FunctionRef) : Goes P (Watch.plain (Exec.functionAt r)) w fun f w' =>
    w' = w ∧ w.machine.store.function? r = some f := by
  refine .plainLook ?_
  split
  · next f hf => exact .plainPure ⟨rfl, hf⟩
  · exact .plainThrow trivial

theorem conducts_objectAt (r : ObjectRef) : Conducts P (Watch.plain (Exec.objectAt r)) w := by
  refine .plainLook ?_
  split
  · exact .plainPure rfl
  · exact .plainThrow trivial

/-- The parameters of a function are names, and its body has the right form. -/
theorem goes_routineOf (hf : Proper P .method f.declaration) :
    Goes P (Watch.plain (Exec.routineOf f)) w fun routine w' =>
      w' = w ∧ (∀ param ∈ routine.1, param.IsName) ∧ Proper P .body routine.2 := by
  refine .plainLift fun slots hslots => ?_
  have hbody : Role.inside .method f.declaration 2 = some .body →
      f.declaration.children[2]? = some slots.2 → Proper P .body slots.2 := hf.child 2
  have hformed := hf.formed
  revert hslots hbody hformed
  cases f.declaration with
  | funDecl name params body =>
    rintro ⟨⟩ hbody hformed
    cases hformed with
    | method _ hparams =>
      refine .plainLift fun _ hitems => .plainPure ⟨rfl, ?_, hbody rfl rfl⟩
      cases hitems
      exact hparams
  | _ => rintro ⟨⟩

theorem conducts_classArity (initializer : Option FunctionRef) :
    Conducts P (Watch.plain (Exec.classArity initializer)) w := by
  cases initializer with
  | none => exact .plainPure rfl
  | some r =>
    refine .lawful fun hw => (goes_functionAt r).plainBind ?_
    rintro f _ - ⟨rfl, hf⟩
    refine (goes_routineOf (hw.function hf).declaration).plainBind ?_
    rintro _ _ - ⟨rfl, -⟩
    exact .plainPure rfl

/-! ## Changes -/

/-- A line of the trace cites nothing. -/
theorem conducts_note (level : Nat) (line : Machine → Except Fault String) :
    Conducts P (Watch.plain (Exec.note level line)) w := by
  refine .plainLook ?_
  split
  · refine .plainLift fun text _ => ?_
    obtain ⟨trace, htrace⟩ : ∃ trace, w.machine.note level text = { w.machine with trace } := by
      by_cases h : level ≤ w.machine.detail
      · exact ⟨_, if_pos h⟩
      · exact ⟨w.machine.trace, if_neg h⟩
    have hx : (modify fun m => m.note level text : Exec Unit) w.machine =
        .ok () { w.machine with trace } :=
      congrArg (EStateM.Result.ok ()) htrace
    exact .ok (Watch.plain_ok hx)
      (fun hw => .machine (hw.of_onward (.refl _) rfl rfl rfl) (.refl _)) rfl
  · exact .plainPure rfl

theorem conducts_printValue (value : Value) : Conducts P (Watch.plain (Exec.printValue value)) w :=
  .plainLook (.plainLift fun _ _ =>
    .ok rfl (fun hw => .machine (hw.of_onward (.refl _) rfl rfl rfl) (.refl _)) rfl)

theorem conducts_readClock : Conducts P (Watch.plain Exec.readClock) w :=
  .ok rfl (fun hw => .machine (hw.of_onward (.refl _) rfl rfl rfl) (.refl _)) rfl

/-- A name other than `this` may be bound anywhere. -/
theorem conducts_defineIn (hn : (name == Name.ofText "this") = false) (r : ScopeRef) (value : Value) :
    Conducts P (Watch.plain (Exec.defineIn r name value)) w :=
  have ho := Store.onward_define hn r value
  .ok rfl (fun hw => .machine (hw.of_onward ho rfl rfl rfl) ho) rfl

theorem conducts_define (hn : (name == Name.ofText "this") = false) (value : Value) :
    Conducts P (Watch.plain (Exec.define name value)) w :=
  conducts_defineIn hn w.machine.current value

/-- An identifier is not `this`. -/
theorem Tree.IsName.ne_this (h : t.IsName) (hn : t.asName = .ok name) :
    (name == Name.ofText "this") = false := by
  obtain ⟨s, hs, hw⟩ := h.exists_key
  cases hs.symm.trans hn
  exact ofText_beq_keyword hw "this" (by decide)

/-- An assignment can fail at its name only. -/
theorem conducts_assign (hs : slot.IsName) (h : slot.Cited P) (depth : Option Nat) (value : Value) :
    Conducts P (Watch.plain (Exec.assign slot depth value)) w := by
  refine .plainLift fun a ha => .plainLift fun name hname => ?_
  have hn : (name == Name.ofText "this") = false := by
    refine hs.ne_this ?_
    rw [Tree.asName, ha]
    exact hname
  have htarget : Conducts P (Watch.plain (Exec.targetOf name a.line depth)) w := by
    refine .plainLook ?_
    cases depth with
    | some distance => exact conducts_lift _
    | none =>
      show Conducts P (Watch.plain (Exec.orStop _)) w
      unfold Store.holder
      cases w.machine.store.holder? w.machine.globals name with
      | some r => exact .plainPure rfl
      | none => exact .plainThrow fun _ => ⟨a, h.asToken ha, rfl⟩
  exact htarget.plainThen fun r _ => conducts_defineIn hn r value

/-- Parameters are bound to their values. -/
theorem conducts_bindParameters (r : ScopeRef) : ∀ {params : List Tree} (values : List Value)
    (w : Watched), (∀ param ∈ params, param.IsName) →
    Conducts P (Watch.plain (Exec.bindParameters r params values)) w
  | [], _, _, _ => .plainPure rfl
  | _ :: _, [], _, _ => .plainPure rfl
  | _ :: _, _ :: values, _, h => by
    obtain ⟨hparam, hparams⟩ := List.forall_mem_cons.1 h
    refine .plainLift fun name hname => ?_
    exact (conducts_defineIn (hparam.ne_this hname) r _).plainThen fun _ w' =>
      conducts_bindParameters r values w' hparams

theorem conducts_declareVar (hs : slot.IsName) (value : Value) :
    Conducts P (Watch.plain (Exec.declareVar slot value)) w := by
  refine .plainLift fun name hname => ?_
  refine (conducts_define (hs.ne_this hname) value).plainThen fun _ _ => ?_
  exact (conducts_note _ _).plainThen fun _ _ => .plainPure rfl

theorem conducts_addObject (o : Object) : Conducts P (Watch.plain (Exec.addObject o)) w :=
  have ho := Store.onward_addObject o
  .ok rfl (fun hw => .machine (hw.of_onward ho rfl rfl rfl) ho) rfl

theorem conducts_setField (r : ObjectRef) (slot : Tree) (value : Value) :
    Conducts P (Watch.plain (Exec.setField r slot value)) w := by
  refine .plainLift fun name _ => ?_
  have ho := Store.onward_setField (s := w.machine.store) r name value
  exact .ok rfl (fun hw => .machine (hw.of_onward ho rfl rfl rfl) ho) rfl

theorem conducts_addClass {k : Class} (hk : w.machine.store.Staffs k.methods) :
    Conducts P (Watch.plain (Exec.addClass k)) w :=
  .ok rfl (fun hw => .machine (hw.addClass hk) (Store.onward_addClass k)) rfl

/-- A new scope is one for declarations. -/
theorem goes_addScope (site : Site) (subject : Subject) (enclosing : ScopeRef) :
    Goes P (Watch.addScope site subject enclosing) w fun r w' =>
      w'.machine.current = w.machine.current ∧ w'.machine.store.Free r ∧
        w'.machine.store.enclosing? r = some enclosing :=
  have ho := Store.onward_addScope (some enclosing)
  .ok rfl (fun hw => ⟨hw.of_onward ho rfl rfl rfl, ho, fun _ => .inl⟩)
    ⟨rfl, Store.free_addScope (some enclosing),
      congrArg Scope.enclosing (Store.scope_addScope_self _ _)⟩

theorem goes_addFunction (home : Home) (hf : w.machine.store.Fits P f) :
    Goes P (Watch.addFunction home f) w fun r w' =>
      w'.machine.current = w.machine.current ∧ w'.machine.store.function? r = some f := by
  refine .ok rfl (fun hw => ?_) ⟨rfl, Array.getElem?_push_size⟩
  exact ⟨hw.addFunction hf, Store.onward_addFunction f, fun _ => .inl⟩

variable {r : FunctionRef}

theorem conducts_plain_bindMethod {name : String} (hf : w.machine.store.function? r = some f)
    (hname : f.MethodNamed name) (this : Value) :
    Conducts P (Watch.plain (Exec.bindMethod r this)) w := by
  refine .lawful fun hw => ?_
  obtain ⟨ho, hl⟩ := hw.bindMethod hf hname this
  have hx : Exec.bindMethod r this w.machine = .ok _ _ := rfl
  exact .ok (Watch.plain_ok hx) (fun _ => .machine hl ho) rfl

theorem conducts_bindMethod {name : String} (hf : w.machine.store.function? r = some f)
    (hname : f.MethodNamed name) (this : Value) : Conducts P (Watch.bindMethod r this) w := by
  refine .homeOf fun home => .look ?_
  refine (conducts_plain_bindMethod hf hname this).andThen fun bound w' => ?_
  exact .ok rfl (fun hw' => ⟨hw', .refl _, fun _ => .inl⟩) rfl

theorem conducts_methodOf {s : String} (ha : P a) (c : ClassRef) (this : Value) :
    Conducts P (Watch.methodOf c (.ofText s) a.line this) w := by
  refine .lawful fun hw => .lookMachine ?_
  split
  · next r hr =>
    obtain ⟨_, _, hk, hfind⟩ := Store.exists_of_findMethod? hr
    obtain ⟨f, hf, hname⟩ := hw.cls hk hfind
    exact (conducts_bindMethod hf hname this).andThen fun _ _ => .pure rfl
  · exact .throw fun _ => ⟨a, ha, rfl⟩

/-- A property is looked up. Only its name is cited. -/
theorem conducts_property (hs : slot.IsName) (h : slot.Cited P) (r : ObjectRef) :
    Conducts P (Watch.property r slot) w := by
  obtain ⟨s, hkey, -⟩ := hs.exists_key
  refine .lift fun a ha => .lift fun name hname => ?_
  obtain rfl : Name.ofText s = name := by
    rw [Tree.asName, ha] at hkey
    exact Except.ok.inj (hkey.symm.trans hname)
  refine (conducts_objectAt r).andThen fun o w' => ?_
  split
  · exact .pure rfl
  · exact conducts_methodOf (h.asToken ha) _ _

/-- The method of a superclass. Only its name is cited. -/
theorem conducts_superMethod (hs : slot.IsName) (h : slot.Cited P) (depth : Option Nat) :
    Conducts P (Watch.superMethod slot depth) w := by
  cases depth with
  | none => exact .throw trivial
  | some distance =>
    refine .lookMachine (.lift fun parent _ => .lift fun this _ => ?_)
    split
    · obtain ⟨s, hkey, -⟩ := hs.exists_key
      refine .lift fun a ha => .lift fun name hname => ?_
      obtain rfl : Name.ofText s = name := by
        rw [Tree.asName, ha] at hkey
        exact Except.ok.inj (hkey.symm.trans hname)
      exact conducts_methodOf (h.asToken ha) _ _
    · exact .throw trivial

theorem conducts_declareFunction (home : Home) {declaration : Tree} (hs : slot.IsName)
    (hd : Proper P .method declaration) :
    Conducts P (Watch.declareFunction home declaration slot) w := by
  refine .lawful fun hw => .lift fun name hname => .lookMachine ?_
  have hfits : w.machine.store.Fits P { name, declaration, closure := w.machine.current } :=
    hw.fits rfl hd
  refine Conducts.andThen ((goes_addFunction home hfits).imp fun _ _ _ h => h.1) fun r _ => ?_
  refine (conducts_define (hs.ne_this hname) _).andThen fun _ _ => ?_
  exact (conducts_note _ _).andThen fun _ _ => .pure rfl

end Steps

/-! ## Steps around other computations -/

section Around

variable {P : Token → Prop} {w : Watched} {α : Type} {x : Watch α}

variable {r : ScopeRef}

/-- Back in a scope for declarations. -/
theorem Watched.Onward.leave {w' : Watched} (ho : (w.enter r).Onward P w')
    (hw : w.machine.Lawful P) :
    w.Onward P (w'.enter w.machine.current) :=
  ⟨ho.lawful.enter (ho.store.free hw.current), ho.store, ho.visits⟩

/-- The machine comes back to the scope. -/
theorem conducts_inScope (hr : w.machine.store.Free r) (hx : Conducts P x (w.enter r)) :
    Conducts P (Watch.inScope r x) w := by
  intro hw
  have h := hx (hw.enter hr)
  unfold Ends Watch.inScope
  unfold Ends Watched.enter at h
  revert h
  dsimp only
  cases x { w with machine := { w.machine with current := r } } with
  | ok a w' => exact fun h => ⟨Watched.Onward.leave h.1 hw, rfl⟩
  | error e w' => exact fun h => ⟨Watched.Onward.leave h.1 hw, h.2⟩

/-- An overflow is cited at the slot. -/
theorem conducts_overflowAt {slot : Tree} (hs : slot.Cited P) (hx : Conducts P x w) :
    Conducts P (Watch.overflowAt slot x) w := by
  intro hw
  have h := hx hw
  unfold Ends at h
  unfold Ends Watch.overflowAt
  revert h
  cases x w with
  | ok a w' => exact fun h => h
  | error e w' =>
    rintro ⟨ho, he⟩
    cases e with
    | overflow =>
      have hraise := goes_raise (α := α) (w := w') (Q := fun _ w'' =>
        w''.machine.current = w.machine.current) hs .stackOverflow ho.lawful
      exact Ends.imp hraise (fun _ _ h => ⟨ho.trans h.1, h.2⟩) fun _ _ h => ⟨ho.trans h.1, h.2⟩
    | _ => exact ⟨ho, he⟩

/-- Arguments one after the other. -/
theorem conducts_evaluateEach {evaluate : Nat → Tree → Watch Value}
    (h : ∀ i, ∀ t ∈ ts, ∀ w, Conducts P (evaluate i t) w) :
    ∀ (done : List Value) (i : Nat) (w : Watched),
      Conducts P (Watch.evaluateEach evaluate done i ts) w := by
  induction ts with
  | nil => exact fun _ _ _ => .pure rfl
  | cons t ts ih =>
    intro done i w
    refine (h i t List.mem_cons_self w).andThen fun value w' => ?_
    exact ih (fun i u hu => h i u (List.mem_cons_of_mem _ hu)) _ _ w'

/-- Statements one after the other. -/
theorem conducts_executeEach {execute : Nat → Tree → Watch Completion}
    (h : ∀ i, ∀ t ∈ ts, ∀ w, Conducts P (execute i t) w) :
    ∀ (i : Nat) (w : Watched), Conducts P (Watch.executeEach execute i ts) w := by
  induction ts with
  | nil => exact fun _ _ => .pure rfl
  | cons t ts ih =>
    intro i w
    have hrest (w' : Watched) := ih (fun i u hu => h i u (List.mem_cons_of_mem _ hu)) (i + 1) w'
    unfold Watch.executeEach
    split
    · exact hrest w
    · refine (h i t List.mem_cons_self w).andThen fun completion w' => ?_
      cases completion with
      | normal => exact hrest w'
      | returned value => exact .pure rfl

/-- A loop, by induction on its rounds. -/
theorem conducts_repeatWhile {condition : Watch Value} {body : Watch Completion}
    (hc : ∀ w, Conducts P condition w) (hb : ∀ w, Conducts P body w) (rounds : Nat) :
    ∀ w, Conducts P (Watch.repeatWhile condition body rounds) w := by
  induction rounds with
  | zero => exact fun _ => .throw trivial
  | succ rounds ih =>
    intro w
    refine (hc w).andThen fun value w' => ?_
    split
    · refine (hb w').andThen fun completion w'' => ?_
      cases completion with
      | normal => exact ih w''
      | returned value => exact .pure rfl
    · exact .pure rfl

/-- The body of a function is executed in a new scope. An initializer gives what `this` was bound to
when it was called, since nothing has changed this. -/
theorem goes_callFunction
    {executeBlock : Position → List ScopeRef → Tree → ScopeRef → Watch Completion}
    (h : ∀ p display t r w, Proper P .body t → w.machine.store.Free r →
      Conducts P (executeBlock p display t r) w)
    {paren : Tree} (hp : paren.Cited P) (r : FunctionRef) (arguments : List Value) :
    Goes P (Watch.callFunction executeBlock r arguments paren) w fun result w' =>
      w'.machine.current = w.machine.current ∧ ∀ f v, w.machine.store.function? r = some f →
        f.isInitializer = true → w.machine.store.bound? f.closure (.ofText "this") = some v →
        result = v := by
  refine .lawful fun hw => (goes_functionAt r).bind ?_
  rintro f w - ⟨rfl, hf⟩
  refine .homeOf fun home => (goes_routineOf (hw.function hf).declaration).bind ?_
  rintro ⟨params, body⟩ w - ⟨rfl, hparams, hbody⟩
  refine Goes.bind (conducts_checkArity hp _ _) fun _ w₁ ho₁ hc₁ => ?_
  refine Goes.bind (conducts_note _ _) fun _ w₂ ho₂ hc₂ => ?_
  refine (goes_addScope _ _ _).bind fun scope w₃ ho₃ hscope => ?_
  refine Goes.bind (conducts_bindParameters scope _ w₃ hparams) fun _ w₄ ho₄ hc₄ => ?_
  refine Goes.bind (h _ _ _ _ w₄ hbody (ho₄.store.free hscope.2.1)) fun completion w₅ ho₅ hc₅ => ?_
  have hc : w₅.machine.current = w.machine.current :=
    hc₅.trans (hc₄.trans (hscope.1.trans (hc₂.trans hc₁)))
  have ho := ((((ho₁.trans ho₂).trans ho₃).trans ho₄).trans ho₅).store
  split
  · refine .lookMachine ?_
    cases hlook : w₅.machine.store.lookupAt 0 f.closure (.ofText "this") with
    | error fault => exact .plainThrow trivial
    | ok value =>
      refine .plainPure ⟨hc, fun f' v hf' _ hv => ?_⟩
      cases hf.symm.trans hf'
      rw [← ho.receiver (hw.function hf).closure] at hv
      exact Except.ok.inj (hlook.symm.trans (Store.lookupAt_zero hv))
  · next hno =>
    refine .pure ⟨hc, fun f' v hf' hyes => ?_⟩
    cases hf.symm.trans hf'
    exact absurd hyes hno

/-- An object is made, and its initializer is called. -/
theorem conducts_callClass {call : Value → Watch Value} (h : ∀ v w, Conducts P (call v) w)
    {paren : Tree} (hp : paren.Cited P) (c : ClassRef) (arguments : List Value) :
    Conducts P (Watch.callClass call c arguments paren) w := by
  refine .lawful fun hw => .lookMachine ?_
  refine (conducts_classArity _).bind fun arity w₁ ho₁ _ => ?_
  refine (conducts_checkArity hp _ _).bind fun _ w₂ ho₂ _ => ?_
  refine (conducts_addObject _).bind fun o w₃ ho₃ _ => ?_
  split
  · exact .pure rfl
  · next r hr =>
    obtain ⟨_, _, hk, hfind⟩ := Store.exists_of_findMethod? hr
    obtain ⟨f, hf, hname⟩ := hw.cls hk hfind
    have hf₃ := ((ho₁.trans ho₂).trans ho₃).store.grows.function hf
    refine (conducts_bindMethod hf₃ hname _).andThen fun bound w₄ => ?_
    exact (h _ w₄).andThen fun _ _ => .pure rfl

end Around

/-! ## Classes -/

section Classes

variable {P : Token → Prop} {w : Watched}

/-- A superclass that is no class is cited. -/
theorem conducts_superclass {evaluate : Tree → Watch Value} {parent : Tree}
    (hp : ∀ slot, parent.nameSlot = .ok slot → slot.Cited P)
    (h : parent.isNull = false → Conducts P (evaluate parent) w) :
    Conducts P (Watch.superclass evaluate parent) w := by
  unfold Watch.superclass
  split
  · exact .pure rfl
  · next hn =>
    refine (h (by simpa using hn)).andThen fun value w' => ?_
    split
    · exact .pure rfl
    · exact .lift fun slot hslot => goes_raise (hp slot hslot) _

/-- Each method is made under its name, and flagged if this is `init`. -/
theorem goes_methodsOf (p : Position) (display : List ScopeRef) {ts : List Tree}
    (hts : ∀ t ∈ ts, Proper P .method t) :
    ∀ (done : Bindings Name FunctionRef) (i : Nat) (w : Watched), w.machine.store.Staffs done →
      Goes P (Watch.methodsOf p display done i ts) w fun made w' =>
        w'.machine.current = w.machine.current ∧ w'.machine.store.Staffs made := by
  induction ts with
  | nil => exact fun done i w hdone => .pure ⟨rfl, hdone⟩
  | cons t ts ih =>
    obtain ⟨ht, hrest⟩ := List.forall_mem_cons.1 hts
    intro done i w hdone
    refine .lawful fun hw => .lift fun token htoken => .lift fun name hname => .lookMachine ?_
    have hformed := ht.formed
    cases hformed with
    | @method slot body params hslot =>
      obtain ⟨token', s, rfl, hs, -⟩ := hslot
      cases htoken
      obtain rfl : Name.ofText s = name := by
        rw [Token.name, hs] at hname
        exact Except.ok.inj hname
      have hfits : w.machine.store.Fits P
          { name := .ofText s, declaration := _, closure := w.machine.current
            isInitializer := token.lexeme == .str "init" } :=
        hw.fits rfl ht
      refine (goes_addFunction _ hfits).bind fun r w' ho hr => ?_
      refine (ih hrest _ (i + 1) w' ?_).imp fun _ _ _ h => ⟨h.1.trans hr.1, h.2⟩
      intro name r' hr'
      rw [Bindings.find?_insert, Name.ofText_beq] at hr'
      split at hr'
      · next heq =>
        obtain rfl := beq_iff_eq.1 heq
        cases hr'
        exact ⟨_, hr.2, token, _, _, rfl, hs, by rw [hs]; rfl⟩
      · exact ho.store.staffs hdone hr'

/-- A scope that binds `super` is entered if there is a superclass, and is linked to the scope
before. -/
theorem goes_enterSuper (site : Site) (parent : Option ClassRef) :
    Goes P (Watch.enterSuper site parent) w fun _ w' =>
      if parent.isNone then w'.machine.current = w.machine.current
      else w'.machine.store.enclosing? w'.machine.current = some w.machine.current := by
  cases parent with
  | none => exact .pure rfl
  | some c =>
    refine .lookMachine ((goes_addScope _ _ _).bind fun r w₁ _ hr => ?_)
    refine Goes.bind (conducts_defineIn (by decide) r _) fun _ w₂ ho₂ _ => ?_
    have hfree := ho₂.store.free hr.2.1
    have hlink := (ho₂.store.grows.enclosing hr.2.1.there).trans hr.2.2
    exact .ok rfl (fun hw => .machine (hw.enter hfree) (.refl _)) hlink

/-- The scope that binds `super` is left for the one that it is linked to. -/
theorem goes_leaveSuper {r : ScopeRef} {parent : Option ClassRef} (hr : w.machine.store.Free r)
    (h : if parent.isNone then w.machine.current = r
      else w.machine.store.enclosing? w.machine.current = some r) :
    Goes P (Watch.plain (Exec.leaveSuper parent)) w fun _ w' => w'.machine.current = r := by
  cases parent with
  | none => exact .plainPure h
  | some c =>
    have hnext : (w.machine.store.enclosing? w.machine.current).getD w.machine.current = r :=
      congrArg (Option.getD · w.machine.current) h
    exact .ok rfl (fun hw => .machine (hw.enter (hnext ▸ hr)) (.refl _)) hnext

/-- A class is declared. -/
theorem conducts_declareClass {evaluate : Tree → Watch Value} (p : Position)
    (display : List ScopeRef) {slot parent : Tree} {methods : List Tree} (hs : slot.IsName)
    (hp : ∀ slot, parent.nameSlot = .ok slot → slot.Cited P)
    (he : parent.isNull = false → Conducts P (evaluate parent) w)
    (hms : ∀ t ∈ methods, Proper P .method t) :
    Conducts P (Watch.declareClass evaluate p display slot parent (.list methods)) w := by
  refine (conducts_superclass hp he).andThen fun parent w₁ => ?_
  refine .lift fun name hname => ?_
  refine (conducts_define (hs.ne_this hname) _).andThen fun _ w₂ => ?_
  refine .lawful fun hw₂ => .look ((goes_enterSuper _ parent).bind fun _ w₃ ho₃ hlink => ?_)
  refine .lift fun items hitems => ?_
  cases hitems
  refine (goes_methodsOf _ _ hms _ _ w₃ Store.staffs_empty).bind fun made w₄ ho₄ hmade => ?_
  refine Goes.bind (conducts_addClass hmade.2) fun c w₅ ho₅ hc₅ => ?_
  -- the link of the scope that binds `super` is the one that it was made with
  have hinside : w₅.machine.current = w₃.machine.current := hc₅.trans hmade.1
  have hfree := ((ho₃.trans ho₄).trans ho₅).store.free hw₂.current
  refine (goes_leaveSuper (r := w₂.machine.current) hfree ?_).bind fun _ w₆ _ hc₆ => ?_
  · rw [hinside, (ho₄.trans ho₅).store.grows.enclosing ho₃.lawful.current.there]
    exact hlink
  · refine Goes.imp ((conducts_define (hs.ne_this hname) _).andThen fun _ w₇ => ?_)
      fun _ _ _ hc => hc.trans hc₆
    exact (conducts_note _ _).andThen fun _ _ => .pure rfl

end Classes

/-! ## The four walks -/

section Walks

variable {P : Token → Prop} {rounds room : Nat}

/-- A visit is logged with the machine as it is. -/
theorem conducts_visit {w : Watched} {role : Role} {t : Tree} (ht : Proper P role t) (p : Position)
    (display : List ScopeRef) : Conducts P (Watch.visit p display t) w := by
  refine .ok rfl (fun hw => ⟨hw, .refl _, fun v hv => ?_⟩) rfl
  rcases Array.mem_push.1 hv with hv | rfl
  · exact .inl hv
  · exact .inr ⟨hw, ⟨role, ht⟩, .refl _⟩

/-- What the walk over the expressions of a smaller tree does. -/
abbrev Evaluates (P : Token → Prop) (rounds room : Nat) : Prop :=
  ∀ p display {t} w, Proper P .expression t → Conducts P (Watch.evaluate rounds room p display t) w

/-- An expression, from what one level less of room gives. -/
theorem conducts_evaluate (he : Evaluates P rounds room)
    (hcall : ∀ v arguments {paren} w, paren.Cited P →
      Conducts P (Watch.call rounds room v arguments paren) w) :
    Evaluates P rounds (room + 1) := by
  intro p display t w ht
  unfold Watch.evaluate
  refine (conducts_visit ht p display).andThen fun _ w₁ => ?_
  have hformed := ht.formed
  have hchild {u : Tree} (i : Nat) (hr : Role.inside .expression t i = some .expression)
      (hu : t.children[i]? = some u) (p : Position) (w : Watched) :
      Conducts P (Watch.evaluate rounds room p display u) w := he p display w (ht.child i hr hu)
  cases hformed with
  | literal => exact .pure rfl
  | grouping => exact hchild 0 rfl rfl _ _
  | unary =>
    refine (hchild 1 rfl rfl _ _).andThen fun _ _ => ?_
    exact conducts_unary (ht.tokens.child 0 rfl).cited _
  | binary =>
    refine (hchild 0 rfl rfl _ _).andThen fun _ w₂ => ?_
    refine (hchild 2 rfl rfl _ _).andThen fun _ _ => ?_
    exact conducts_binary (ht.tokens.child 1 rfl).cited _ _
  | logical =>
    refine (hchild 0 rfl rfl _ _).andThen fun _ w₂ => ?_
    refine (conducts_decidesLeft _ _).andThen fun decided _ => ?_
    split
    · exact .pure rfl
    · exact hchild 2 rfl rfl _ _
  | ident hname => exact conducts_lookUp (hname.cited (ht.tokens.child 0 rfl)) _
  | assign hname =>
    refine (hchild 1 rfl rfl _ _).andThen fun _ w₂ => ?_
    refine (conducts_visit ht p display).andThen fun _ _ => ?_
    refine (conducts_assign hname (hname.cited (ht.tokens.child 0 rfl)) _ _).andThen
      fun _ _ => .pure rfl
  | @call callee arguments paren =>
    have hcited : (Tree.token paren).Cited P := (ht.tokens.child 1 rfl).cited
    have hargs : Proper P .arguments arguments := ht.child 2 rfl rfl
    cases hargs.formed with
    | @arguments items =>
      refine (hchild 0 rfl rfl _ _).andThen fun value w₂ => .lift fun _ hitems => ?_
      cases hitems
      have hitem (i : Nat) (u : Tree) (hu : u ∈ items) (w : Watched) :=
        he ((p.below 2).below i) display w (hargs.items (fun _ => rfl) u hu)
      refine (conducts_evaluateEach hitem [] 0 w₂).andThen fun values w₃ => ?_
      exact conducts_overflowAt hcited (hcall _ _ w₃ hcited)
  | getField hname =>
    refine (hchild 0 rfl rfl _ _).andThen fun value w₂ => ?_
    have hcited := hname.cited (ht.tokens.child 1 rfl)
    split
    · exact conducts_property hname hcited _
    · exact goes_raise hcited _
  | setField hname =>
    refine (hchild 0 rfl rfl _ _).andThen fun value w₂ => ?_
    split
    · refine (hchild 2 rfl rfl _ _).andThen fun _ _ => ?_
      exact (conducts_setField _ _ _).andThen fun _ _ => .pure rfl
    · exact goes_raise (hname.cited (ht.tokens.child 1 rfl)) _
  | thisRef hword => exact conducts_lookUp (hword.cited (ht.tokens.child 0 rfl)) _
  | superRef _ hname => exact conducts_superMethod hname (hname.cited (ht.tokens.child 1 rfl)) _

/-- A statement, from what one level less of room gives. -/
theorem conducts_execute (he : Evaluates P rounds room)
    (hexec : ∀ p display {t} w, Proper P .statement t →
      Conducts P (Watch.execute rounds room p display t) w)
    (hblock : ∀ p display t r w, Proper P .body t → w.machine.store.Free r →
      Conducts P (Watch.executeBlock rounds room p display t r) w)
    (p : Position) (display : List ScopeRef) {t : Tree} (w : Watched) (ht : Proper P .statement t) :
    Conducts P (Watch.execute rounds (room + 1) p display t) w := by
  unfold Watch.execute
  refine (conducts_visit ht p display).andThen fun _ w₁ => ?_
  have hformed := ht.formed
  cases hformed with
  | exprStmt =>
    exact (he _ _ _ (ht.child 0 rfl rfl)).andThen fun _ _ => .pure rfl
  | printStmt =>
    exact (he _ _ _ (ht.child 0 rfl rfl)).andThen fun _ _ => conducts_printValue _
  | varDecl hname =>
    dsimp only
    split
    · exact conducts_declareVar hname _
    · next hn =>
      refine (he _ _ _ (ht.optional 1 rfl rfl hn)).andThen fun _ _ => ?_
      exact conducts_declareVar hname _
  | block =>
    refine .lookMachine ((goes_addScope _ _ _).bind fun r w₂ _ hr => ?_)
    exact (hblock _ _ _ _ w₂ (ht.child 0 rfl rfl) hr.2.1).imp fun _ _ _ hc => hc.trans hr.1
  | ifElse =>
    refine (he _ _ _ (ht.child 0 rfl rfl)).andThen fun value _ => ?_
    refine (conducts_note _ _).andThen fun _ _ => ?_
    split
    · exact hexec _ _ _ (ht.child 1 rfl rfl)
    · split
      · exact .pure rfl
      · next hn => exact hexec _ _ _ (ht.optional 2 rfl rfl hn)
  | whileLoop =>
    exact conducts_repeatWhile (fun w => he _ _ w (ht.child 0 rfl rfl))
      (fun w => hexec _ _ w (ht.child 1 rfl rfl)) rounds _
  | funDecl hname => exact conducts_declareFunction _ hname ht.method
  | returnStmt =>
    dsimp only
    split
    · exact .pure rfl
    · next hn =>
      exact (he _ _ _ (ht.optional 1 rfl rfl hn)).andThen fun _ _ => .pure rfl
  | @rootClass name methods hname =>
    have hms : Proper P .members methods := ht.child 2 rfl rfl
    cases hms.formed with
    | members =>
      refine conducts_declareClass p display hname ?_ ?_ (hms.items fun _ => rfl)
      · rintro _ ⟨⟩
      · rintro ⟨⟩
  | @subclass name parent methods depth hname hparent =>
    have hms : Proper P .members methods := ht.child 2 rfl rfl
    have hexpr : Proper P .expression (.ident parent depth) := ht.child 1 rfl rfl
    cases hms.formed with
    | members =>
      refine conducts_declareClass p display hname ?_ (fun _ => he _ _ _ hexpr)
        (hms.items fun _ => rfl)
      rintro _ ⟨⟩
      exact hparent.cited (hexpr.tokens.child 0 rfl)

/-- Every walk over trees of the right form goes from a lawful machine to a lawful one. -/
theorem conducts_walks (P : Token → Prop) (rounds room : Nat) :
    Evaluates P rounds room ∧
    (∀ p display {t} w, Proper P .statement t →
      Conducts P (Watch.execute rounds room p display t) w) ∧
    (∀ p display t r w, Proper P .body t → w.machine.store.Free r →
      Conducts P (Watch.executeBlock rounds room p display t r) w) ∧
    ∀ v arguments {paren} w, paren.Cited P →
      Conducts P (Watch.call rounds room v arguments paren) w := by
  induction room with
  | zero =>
    refine ⟨fun p display t w ht => ?_, fun p display t w ht => ?_, fun p display t r w ht hr => ?_,
      fun v arguments paren w hp => ?_⟩
    · unfold Watch.evaluate
      exact .throw trivial
    · unfold Watch.execute
      exact .throw trivial
    · unfold Watch.executeBlock
      exact .throw trivial
    · unfold Watch.call
      exact .throw trivial
  | succ room ih =>
    obtain ⟨he, hexec, hblock, hcall⟩ := ih
    refine ⟨conducts_evaluate he hcall, conducts_execute he hexec hblock,
      fun p display t r w ht hr => ?_, fun v arguments paren w hp => ?_⟩
    · unfold Watch.executeBlock
      cases ht.formed with
      | body =>
        refine conducts_inScope hr (.lift fun _ hitems => ?_)
        cases hitems
        exact conducts_executeEach (fun i u hu w => hexec _ _ w (ht.items (fun _ => rfl) u hu)) _ _
    · unfold Watch.call
      split
      · exact (conducts_checkArity hp _ _).andThen fun _ _ => conducts_readClock
      · exact (goes_callFunction hblock hp _ _).imp fun _ _ _ h => h.1
      · exact conducts_callClass (fun v w => hcall v arguments w hp) hp _ _
      · exact goes_raise hp _

end Walks

end LoxLang
