import LoxLang.Proofs.Likeness
import Mathlib.Data.List.Find

/-!
# Machines that run alike

Two machines run programs that correspond to each other. The right one may have scopes that the left
one lacks. These spare scopes bind nothing. `Twins` holds the two machines, says for each scope of
the left one which scope of the right one stands for it, and keeps the marks of the scopes, which
have no trace in a store. A marked scope binds the same values under changed names.

From a scope the right machine comes to the scopes that the left one comes to, maybe with other
numbers of steps (`Reaches`). So a function has on the right a declaration that may stand for the
one on the left, in the setting of its closure. A method that is not bound to an object lacks the
innermost scope of this setting, the one of `this`. `Paired` says that all else is the same, and that
the scopes which were there before the first spare one stand for themselves. It is kept by each
change of the machines.
-/

namespace LoxLang

variable {r : ScopeRef} {s : Store} {b : Bool}

namespace Store

/-- All scopes around scopes are there. -/
def Enclosed (s : Store) : Prop :=
  ∀ ⦃r e : ScopeRef⦄, s.enclosing? r = some e → e.index < s.scopes.size

section Enclosed

variable {s t : Store} {r e a : ScopeRef}

theorem scopeAt_succ_of_some (he : s.enclosing? r = some e) (d : Nat) :
    s.scopeAt (d + 1) r = s.scopeAt d e := by
  unfold scopeAt
  rw [ancestor, he]

theorem scopeAt_succ_of_none (he : s.enclosing? r = none) (d : Nat) :
    s.scopeAt (d + 1) r = .error .missingSlot := by
  unfold scopeAt
  rw [ancestor, he]
  cases d <;> rfl

/-- A depth leads to a scope that exists. -/
theorem Enclosed.scopeAt_lt (h : s.Enclosed) {d : Nat} (hr : r.index < s.scopes.size)
    (ha : s.scopeAt d r = .ok a) : a.index < s.scopes.size := by
  induction d generalizing r with
  | zero =>
    cases ha
    exact hr
  | succ d ih =>
    cases he : s.enclosing? r with
    | none => simp [scopeAt_succ_of_none he] at ha
    | some e =>
      rw [scopeAt_succ_of_some he] at ha
      exact ih (h he) ha

/-- Steps out of a scope stay where they are. -/
theorem Enclosed.scopeAt_of_grows (h : s.Enclosed) (hg : s.Grows t) (hr : r.index < s.scopes.size)
    (d : Nat) : t.scopeAt d r = s.scopeAt d r := by
  induction d generalizing r with
  | zero => rfl
  | succ d ih =>
    have he' := hg.enclosing hr
    cases he : s.enclosing? r with
    | none => rw [scopeAt_succ_of_none he, scopeAt_succ_of_none (he'.trans he)]
    | some e => rw [scopeAt_succ_of_some he, scopeAt_succ_of_some (he'.trans he), ih (h he)]

theorem Enclosed.define (h : s.Enclosed) (q : ScopeRef) (name : Name) (v : Value) :
    (s.define q name v).Enclosed := by
  intro r e he
  rw [enclosing?_define] at he
  rw [size_define]
  exact h he

theorem enclosing?_eq_none_of_size_le (h : s.scopes.size ≤ r.index) : s.enclosing? r = none := by
  simp [enclosing?, scope, Array.getD_eq_getD_getElem?, h]

theorem size_addScope (s : Store) (e : Option ScopeRef) :
    (s.addScope e).2.scopes.size = s.scopes.size + 1 := by
  simp [Store.addScope]

theorem enclosing?_addScope_self (s : Store) (e : Option ScopeRef) :
    (s.addScope e).2.enclosing? ⟨s.scopes.size⟩ = e :=
  congrArg Scope.enclosing (scope_addScope_self s e)

/-- A new scope goes on to one that exists. -/
theorem Enclosed.addScope (h : s.Enclosed) (hq : e.index < s.scopes.size) :
    (s.addScope (some e)).2.Enclosed := by
  intro r a ha
  rw [size_addScope]
  rcases Nat.lt_trichotomy r.index s.scopes.size with hr | hr | hr
  · rw [(grows_addScope s (some e)).enclosing hr] at ha
    exact Nat.lt_succ_of_lt (h ha)
  · obtain rfl : r = ⟨s.scopes.size⟩ := by
      cases r
      simpa using hr
    rw [enclosing?_addScope_self] at ha
    cases ha
    exact Nat.lt_succ_of_lt hq
  · rw [enclosing?_eq_none_of_size_le (by rw [size_addScope]; exact hr)] at ha
    cases ha

/-- The steps out of a new scope. -/
theorem Enclosed.scopeAt_addScope (h : s.Enclosed) (he : e.index < s.scopes.size) (d : Nat) :
    (s.addScope (some e)).2.scopeAt (d + 1) ⟨s.scopes.size⟩ = s.scopeAt d e := by
  rw [scopeAt_succ_of_some (enclosing?_addScope_self s (some e)),
    h.scopeAt_of_grows (grows_addScope s (some e)) he]

end Enclosed

/-! ## Ordered stores -/

/-- All links lead to what was there before: around each scope but the globals is an older one, and
each superclass is older than its class. -/
structure Ordered (s : Store) (globals : ScopeRef) : Prop where
  root : s.enclosing? globals = none
  links : ∀ {r : ScopeRef}, r.index < s.scopes.size → r ≠ globals →
    ∃ e, s.enclosing? r = some e ∧ e.index < r.index
  superclasses : ∀ {c k p}, s.class? c = some k → k.superclass = some p → p.index < c.index

section Ordered

variable {s : Store} {g : ScopeRef}

theorem lt_or_eq_of_lt_addScope {e : Option ScopeRef} (hr : r.index < (s.addScope e).2.scopes.size) :
    r.index < s.scopes.size ∨ r = ⟨s.scopes.size⟩ := by
  rw [Store.size_addScope] at hr
  rcases Nat.lt_succ_iff_lt_or_eq.1 hr with h | h
  · exact .inl h
  · cases r
    exact .inr (congrArg ScopeRef.mk h)

theorem Ordered.congr (h : s.Ordered g) {t : Store} (hs : t.scopes = s.scopes)
    (hc : t.classes = s.classes) : t.Ordered g := by
  obtain ⟨scopes, functions, classes, objects⟩ := t
  subst hs hc
  exact ⟨h.root, h.links, h.superclasses⟩

theorem Ordered.define (h : s.Ordered g) (q : ScopeRef) (name : Name) (v : Value) :
    (s.define q name v).Ordered g where
  root := (enclosing?_define ..).trans h.root
  links hr hne := by
    rw [size_define] at hr
    rw [enclosing?_define]
    exact h.links hr hne
  superclasses := h.superclasses

theorem Ordered.addScope (h : s.Ordered g) (hg : g.index < s.scopes.size) {e : ScopeRef}
    (he : e.index < s.scopes.size) : (s.addScope (some e)).2.Ordered g where
  root := ((grows_addScope s _).enclosing hg).trans h.root
  links {r} hr hne := by
    rcases lt_or_eq_of_lt_addScope hr with hr | rfl
    · rw [(grows_addScope s _).enclosing hr]
      exact h.links hr hne
    · exact ⟨e, enclosing?_addScope_self s _, he⟩
  superclasses := h.superclasses

/-- A new class goes on to an older one. -/
theorem Ordered.addClass (h : s.Ordered g) {k : Class}
    (hk : ∀ {p}, k.superclass = some p → p.index < s.classes.size) :
    (s.addClass k).2.Ordered g where
  root := h.root
  links := h.links
  superclasses {c j p} hj hp := by
    change (s.classes.push k)[c.index]? = some j at hj
    rw [Array.getElem?_push] at hj
    split at hj
    · next hc =>
      cases hj
      exact hc ▸ hk hp
    · exact h.superclasses (c := c) hj hp

end Ordered

end Store

/-- Two machines, the scope of the right one that stands for a scope of the left one, and the marks
of these scopes. -/
structure Twins (C : Correspondence) where
  left : Machine
  right : Machine
  /-- How many scopes were there before the machines differed. -/
  old : Nat
  image : ScopeRef → ScopeRef
  marked : ScopeRef → Bool

variable {π : Setting}

namespace Twins

variable {C : Correspondence}

/-- A number of steps out of the scope on the left leads where the setting says that it leads out of
the scope on the right, and to the mark that it says. -/
structure Reaches (p : Twins C) (r r' : ScopeRef) (π : Setting) : Prop where
  left : r.index < p.left.store.scopes.size
  right : r'.index < p.right.store.scopes.size
  scopeAt : ∀ d, p.right.store.scopeAt (π.number d) r' = (p.left.store.scopeAt d r).map p.image
  marked : ∀ {d a}, p.left.store.scopeAt d r = .ok a → p.marked a = π.marks.getD d false

/-- The functions differ only in their declarations, which may stand for each other in the setting of
their closures. A method that is not bound lacks the innermost scope of it. -/
structure Corresponding (p : Twins C) (isUnbound : Bool) (f f' : Function) : Prop where
  name : f'.name = f.name
  isInitializer : f'.isInitializer = f.isInitializer
  declaration : ∃ π, p.Reaches f.closure f'.closure π ∧
    C.Like .method (if isUnbound then π.inside false else π) f.declaration f'.declaration

/-- There is such a function. -/
def Has (p : Twins C) (isUnbound : Bool) (r : FunctionRef) : Prop :=
  ∃ f f', p.left.store.function? r = some f ∧ p.right.store.function? r = some f' ∧
    p.Corresponding isUnbound f f'

/-- The value is one that programs can get hold of: if it is a function, then not a method that
lacks its object. -/
def Fits (p : Twins C) : Value → Prop
  | .function r => p.Has false r
  | .cls c => C.ordered → c.index < p.left.store.classes.size
  | _ => True

/-- The two machines are alike. Scopes, functions and values correspond, and the rest is the same.
-/
structure Paired (p : Twins C) : Prop where
  rest : { p.right with
    store := p.left.store, current := p.left.current, trace := p.left.trace } = p.left
  blocked : p.right.trace.blocked = p.left.trace.blocked
  trace : C.traced → p.right.trace = p.left.trace
  old_le : p.old ≤ p.left.store.scopes.size
  globals_lt : p.left.globals.index < p.old
  enclosing_lt : ∀ {r e}, r.index < p.old → p.left.store.enclosing? r = some e → e.index < p.old
  enclosing_old : ∀ {r : ScopeRef}, r.index < p.old →
    p.right.store.enclosing? r = p.left.store.enclosing? r
  image_old : ∀ {r : ScopeRef}, r.index < p.old → p.image r = r
  marked_old : ∀ {r : ScopeRef}, r.index < p.old → p.marked r = false
  enclosedLeft : p.left.store.Enclosed
  enclosedRight : p.right.store.Enclosed
  image_lt : ∀ {r : ScopeRef}, r.index < p.left.store.scopes.size →
    (p.image r).index < p.right.store.scopes.size
  image_inj : ∀ {r q : ScopeRef}, r.index < p.left.store.scopes.size →
    q.index < p.left.store.scopes.size → p.image r = p.image q → r = q
  bound : ∀ {r : ScopeRef}, r.index < p.left.store.scopes.size → ∀ name,
    p.right.store.bound? (p.image r) (C.change.rename (p.marked r) name) =
      p.left.store.bound? r name
  bindings : ∀ {r : ScopeRef}, r.index < p.left.store.scopes.size → p.marked r = false →
    (p.right.store.scope (p.image r)).bindings = (p.left.store.scope r).bindings
  values : ∀ {r name v}, p.left.store.bound? r name = some v → p.Fits v
  functions_size : p.right.store.functions.size = p.left.store.functions.size
  closures : ∀ {r f}, p.left.store.function? r = some f →
    f.closure.index < p.left.store.scopes.size
  functionName : ∀ r, p.right.store.functionName r = p.left.store.functionName r
  classes : p.right.store.classes = p.left.store.classes
  methods : ∀ {c k name r}, p.left.store.class? c = some k → k.methods.find? name = some r →
    p.Has true r
  objects : p.right.store.objects = p.left.store.objects
  fields : ∀ {o k name v}, p.left.store.object? o = some k → k.fields.find? name = some v → p.Fits v
  ordered : C.ordered → p.left.store.Ordered p.left.globals

/-- What both machines have stays. -/
structure Grows (p q : Twins C) : Prop where
  old : q.old = p.old
  left : p.left.store.Grows q.left.store
  right : p.right.store.Grows q.right.store
  image : ∀ {r : ScopeRef}, r.index < p.left.store.scopes.size → q.image r = p.image r
  marked : ∀ {r : ScopeRef}, r.index < p.left.store.scopes.size → q.marked r = p.marked r

section Growth

variable {p q : Twins C}

theorem lt_size_of_grows {t : Store} (h : s.Grows t) {c : ClassRef}
    (hc : c.index < s.classes.size) :
    c.index < t.classes.size := by
  have hk := h.cls (Array.getElem?_eq_getElem hc)
  exact (Array.getElem?_eq_some_iff.1 hk).1

theorem Grows.refl (p : Twins C) : p.Grows p :=
  ⟨rfl, .refl _, .refl _, fun _ => rfl, fun _ => rfl⟩

theorem Grows.trans {u : Twins C} (h : p.Grows q) (h' : q.Grows u) : p.Grows u where
  old := h'.old.trans h.old
  left := h.left.trans h'.left
  right := h.right.trans h'.right
  image hr := (h'.image (Nat.lt_of_lt_of_le hr h.left.scopes)).trans (h.image hr)
  marked hr := (h'.marked (Nat.lt_of_lt_of_le hr h.left.scopes)).trans (h.marked hr)

/-- Scopes that reach each other still do later. -/
theorem Reaches.mono {r' : ScopeRef} (h : p.Reaches r r' π) (hp : p.Paired) (hg : p.Grows q) :
    q.Reaches r r' π where
  left := Nat.lt_of_lt_of_le h.left hg.left.scopes
  right := Nat.lt_of_lt_of_le h.right hg.right.scopes
  scopeAt d := by
    rw [hp.enclosedRight.scopeAt_of_grows hg.right h.right,
      hp.enclosedLeft.scopeAt_of_grows hg.left h.left, h.scopeAt]
    cases ha : p.left.store.scopeAt d r with
    | error fault => rfl
    | ok a => exact congrArg Except.ok (hg.image (hp.enclosedLeft.scopeAt_lt h.left ha)).symm
  marked {d a} ha := by
    rw [hp.enclosedLeft.scopeAt_of_grows hg.left h.left] at ha
    rw [hg.marked (hp.enclosedLeft.scopeAt_lt h.left ha), h.marked ha]

theorem Corresponding.mono {f f' : Function} (h : p.Corresponding b f f') (hp : p.Paired)
    (hg : p.Grows q) : q.Corresponding b f f' := by
  obtain ⟨π, hr, hd⟩ := h.declaration
  exact { h with declaration := ⟨π, hr.mono hp hg, hd⟩ }

theorem Has.mono {r : FunctionRef} (h : p.Has b r) (hp : p.Paired) (hg : p.Grows q) :
    q.Has b r := by
  obtain ⟨f, f', hf, hf', h⟩ := h
  exact ⟨f, f', hg.left.function hf, hg.right.function hf', h.mono hp hg⟩

theorem Fits.mono {v : Value} (h : p.Fits v) (hp : p.Paired) (hg : p.Grows q) : q.Fits v := by
  cases v with
  | function r => exact Has.mono h hp hg
  | cls c => exact fun ho => lt_size_of_grows hg.left (h ho)
  | _ => trivial

end Growth

/-! ## What the machines find -/

namespace Paired

variable {p : Twins C} {r : ScopeRef}

theorem globals (h : p.Paired) : p.right.globals = p.left.globals :=
  (congrArg Machine.globals h.rest :)

theorem detail (h : p.Paired) : p.right.detail = p.left.detail :=
  (congrArg Machine.detail h.rest :)

theorem clock (h : p.Paired) : p.right.clock = p.left.clock :=
  (congrArg Machine.clock h.rest :)

theorem output (h : p.Paired) : p.right.output = p.left.output :=
  (congrArg Machine.output h.rest :)

/-- A use finds the same value. -/
theorem lookupAt_eq (h : p.Paired) {r' : ScopeRef} {π : Setting} (hr : p.Reaches r r' π) (d : Nat)
    (name : Name) :
    p.right.store.lookupAt (π.number d) r' (C.change.rename (π.marks.getD d false) name) =
      p.left.store.lookupAt d r name := by
  unfold Store.lookupAt
  rw [hr.scopeAt]
  cases ha : p.left.store.scopeAt d r with
  | error fault => rfl
  | ok a =>
    dsimp only [Except.map]
    rw [← hr.marked ha, h.bound (h.enclosedLeft.scopeAt_lt hr.left ha)]

theorem fits_lookupAt (h : p.Paired) {d : Nat} {name : Name} {v : Value}
    (hv : p.left.store.lookupAt d r name = .ok v) : p.Fits v := by
  unfold Store.lookupAt at hv
  split at hv
  · cases hv
  · split at hv
    · next hb =>
      cases hv
      exact h.values hb
    · cases hv

/-- An old scope has the same scopes around it. -/
theorem chain_old (h : p.Paired) (hr : r.index < p.old) :
    p.right.store.chain r = p.left.store.chain r := by
  fun_induction Store.chain p.left.store r with
  | case1 r e he hlt ih =>
    rw [Store.chain_eq, h.enclosing_old hr, he]
    simp only [hlt, if_true]
    rw [ih (h.enclosing_lt hr he)]
  | case2 r e he hlt =>
    rw [Store.chain_eq, h.enclosing_old hr, he]
    simp only [hlt, if_false]
  | case3 r he => rw [Store.chain_eq, h.enclosing_old hr, he]

/-- An old scope is the same in both machines. -/
theorem scope_old (h : p.Paired) (hr : r.index < p.old) :
    p.right.store.scope r = p.left.store.scope r := by
  have hb := h.bindings (Nat.lt_of_lt_of_le hr h.old_le) (h.marked_old hr)
  rw [h.image_old hr] at hb
  have he := h.enclosing_old hr
  unfold Store.enclosing? at he
  cases hs : p.right.store.scope r
  cases hs' : p.left.store.scope r
  simp_all

theorem bound?_old (h : p.Paired) (hr : r.index < p.old) (name : Name) :
    p.right.store.bound? r name = p.left.store.bound? r name := by
  unfold Store.bound?
  rw [h.scope_old hr]

/-- The scopes of the chain of a global are old. -/
theorem lt_of_mem_chain (h : p.Paired) {a : ScopeRef}
    (ha : a ∈ p.left.store.chain p.left.globals) : a.index < p.old :=
  Nat.lt_of_le_of_lt (Store.index_le_of_mem_chain _ ha) h.globals_lt

theorem lookup?_globals (h : p.Paired) (name : Name) :
    p.right.store.lookup? p.right.globals name = p.left.store.lookup? p.left.globals name := by
  unfold Store.lookup?
  rw [h.globals, h.chain_old h.globals_lt, ← List.head?_filterMap, ← List.head?_filterMap]
  exact congrArg List.head? (List.filterMap_congr fun a ha =>
    h.bound?_old (h.lt_of_mem_chain ha) name)

theorem holder?_globals (h : p.Paired) (name : Name) :
    p.right.store.holder? p.right.globals name = p.left.store.holder? p.left.globals name := by
  unfold Store.holder?
  rw [h.globals, h.chain_old h.globals_lt]
  exact List.find?_congr fun a ha =>
    congrArg Option.isSome (h.bound?_old (h.lt_of_mem_chain ha) name)

theorem class?_eq (h : p.Paired) (c : ClassRef) :
    p.right.store.class? c = p.left.store.class? c := by
  unfold Store.class?
  rw [h.classes]

theorem object?_eq (h : p.Paired) (o : ObjectRef) :
    p.right.store.object? o = p.left.store.object? o := by
  unfold Store.object?
  rw [h.objects]

theorem findMethod?_eq (h : p.Paired) (c : ClassRef) (name : Name) :
    p.right.store.findMethod? c name = p.left.store.findMethod? c name := by
  fun_induction Store.findMethod? p.left.store c name with
  | case1 c hk => rw [Store.findMethod?, h.class?_eq, hk]
  | case2 c k hk method hm => rw [Store.findMethod?, h.class?_eq, hk]; simp [hm]
  | case3 c k hk q hq hm hlt ih => rw [Store.findMethod?, h.class?_eq, hk]; simp [hm, hq, hlt, ih]
  | case4 c k hk q hq hm hlt => rw [Store.findMethod?, h.class?_eq, hk]; simp [hm, hq, hlt]
  | case5 c k hk hm hq => rw [Store.findMethod?, h.class?_eq, hk]; simp [hm, hq]

/-- The methods of a class correspond. -/
theorem has_findMethod? (h : p.Paired) {c : ClassRef} {name : Name} {r : FunctionRef}
    (hr : p.left.store.findMethod? c name = some r) : p.Has true r := by
  fun_induction Store.findMethod? p.left.store c name with
  | case1 => cases hr
  | case2 c k hk method hm =>
    cases hr
    exact h.methods hk hm
  | case3 c k hk q hq hm hlt ih => exact ih hr
  | case4 => cases hr
  | case5 => cases hr

theorem text_eq (h : p.Paired) (v : Value) : p.right.store.text v = p.left.store.text v := by
  cases v with
  | function r => simp only [Store.text, h.functionName]
  | cls c => simp only [Store.text, Store.classText, h.class?_eq]
  | object o => simp only [Store.text, Store.className, h.object?_eq, h.class?_eq]
  | _ => rfl

theorem texts_eq (h : p.Paired) (vs : List Value) :
    p.right.store.texts vs = p.left.store.texts vs := by
  induction vs with
  | nil => rfl
  | cons v vs ih => rw [Store.texts, Store.texts, h.text_eq, ih]

end Paired

/-! ## Changes of the machines -/

/-- The machines with other stores. -/
def withStores (p : Twins C) (s s' : Store) : Twins C :=
  { p with left := { p.left with store := s }, right := { p.right with store := s' } }

/-- The machines in other scopes. -/
def inScopes (p : Twins C) (r r' : ScopeRef) : Twins C :=
  { p with left := { p.left with current := r }, right := { p.right with current := r' } }

/-- A name is bound in a scope, and in the one that stands for it. -/
def define (p : Twins C) (r : ScopeRef) (name : Name) (v : Value) : Twins C :=
  p.withStores (p.left.store.define r name v)
    (p.right.store.define (p.image r) (C.change.rename (p.marked r) name) v)

/-- Both machines get a scope with a mark, and one stands for the other. -/
def addScope (p : Twins C) (e e' : ScopeRef) (marked : Bool) : Twins C :=
  { p.withStores (p.left.store.addScope (some e)).2 (p.right.store.addScope (some e')).2 with
    image := fun r =>
      if r.index = p.left.store.scopes.size then ⟨p.right.store.scopes.size⟩ else p.image r
    marked := fun r => if r.index = p.left.store.scopes.size then marked else p.marked r }

/-- The right machine gets a scope that stands for none. -/
def addSpare (p : Twins C) (e' : ScopeRef) : Twins C :=
  p.withStores p.left.store (p.right.store.addScope (some e')).2

/-- A function is added on both sides. -/
def addFunction (p : Twins C) (f f' : Function) : Twins C :=
  p.withStores (p.left.store.addFunction f).2 (p.right.store.addFunction f').2

/-- A class is added on both sides. -/
def addClass (p : Twins C) (k : Class) : Twins C :=
  p.withStores (p.left.store.addClass k).2 (p.right.store.addClass k).2

/-- An object is added on both sides. -/
def addObject (p : Twins C) (o : Object) : Twins C :=
  p.withStores (p.left.store.addObject o).2 (p.right.store.addObject o).2

/-- A field is set on both sides. -/
def setField (p : Twins C) (o : ObjectRef) (name : Name) (v : Value) : Twins C :=
  p.withStores (p.left.store.setField o name v) (p.right.store.setField o name v)

/-- What the machines have printed and traced, and their clock. -/
def shows (p : Twins C) (output : Array String) (clock : Clock) (trace trace' : Trace) : Twins C :=
  { p with
    left := { p.left with output, clock, trace }
    right := { p.right with output, clock, trace := trace' } }

namespace Paired

variable {p : Twins C} {f f' : Function}

theorem rest_withStores (h : p.Paired) (s s' : Store) :
    { (p.withStores s s').right with
      store := (p.withStores s s').left.store, current := (p.withStores s s').left.current,
      trace := (p.withStores s s').left.trace } = (p.withStores s s').left :=
  congrArg (fun m : Machine => { m with store := s }) h.rest

theorem grows_inScopes (p : Twins C) (r r' : ScopeRef) : p.Grows (p.inScopes r r') :=
  ⟨rfl, .refl _, .refl _, fun _ => rfl, fun _ => rfl⟩

theorem inScopes (h : p.Paired) (r r' : ScopeRef) : (p.inScopes r r').Paired :=
  have hg := grows_inScopes p r r'
  { h with
    rest := congrArg (fun m : Machine => { m with current := r }) h.rest
    values := fun hv => (h.values hv).mono h hg
    methods := fun hk hm => (h.methods hk hm).mono h hg
    fields := fun ho hf => (h.fields ho hf).mono h hg }

theorem grows_define (h : p.Paired) {r : ScopeRef} (hr : r.index < p.left.store.scopes.size)
    (name : Name) (v : Value) : p.Grows (p.define r name v) :=
  ⟨rfl, Store.grows_define hr name v, Store.grows_define (h.image_lt hr) _ v, fun _ => rfl,
    fun _ => rfl⟩

/-- A definition on both sides keeps the machines paired. -/
theorem define (h : p.Paired) {r : ScopeRef} (hr : r.index < p.left.store.scopes.size)
    (name : Name) {v : Value} (hv : p.Fits v) : (p.define r name v).Paired := by
  have hg := h.grows_define hr name v
  have hr' := h.image_lt hr
  have hsize : (p.define r name v).left.store.scopes.size = p.left.store.scopes.size :=
    Store.size_define ..
  have hsize' : (p.define r name v).right.store.scopes.size = p.right.store.scopes.size :=
    Store.size_define ..
  have henc (q : ScopeRef) :
      (p.define r name v).left.store.enclosing? q = p.left.store.enclosing? q :=
    Store.enclosing?_define ..
  have henc' (q : ScopeRef) :
      (p.define r name v).right.store.enclosing? q = p.right.store.enclosing? q :=
    Store.enclosing?_define ..
  refine { h with
    rest := h.rest_withStores _ _
    old_le := hsize ▸ h.old_le
    enclosing_lt := fun {q e} hq he => h.enclosing_lt hq (henc q ▸ he)
    enclosing_old := fun {q} hq => by rw [henc, henc', h.enclosing_old hq]
    enclosedLeft := h.enclosedLeft.define r name v
    enclosedRight := h.enclosedRight.define _ _ v
    image_lt := fun {q} hq => hsize' ▸ h.image_lt (hsize ▸ hq)
    image_inj := fun {q u} hq hu => h.image_inj (hsize ▸ hq) (hsize ▸ hu)
    bound := fun {q} hq other => ?_
    bindings := fun {q} hq hm => ?_
    values := fun {q other w} hw => ?_
    closures := fun hf => hsize ▸ h.closures hf
    methods := fun hk hm => (h.methods hk hm).mono h hg
    fields := fun ho hf => (h.fields ho hf).mono h hg
    ordered := fun ho => (h.ordered ho).define r name v }
  · rw [hsize] at hq
    show (p.right.store.define (p.image r) (C.change.rename (p.marked r) name) v).bound?
      (p.image q) (C.change.rename (p.marked q) other) =
        (p.left.store.define r name v).bound? q other
    rw [Store.bound?_define _ hr, Store.bound?_define _ hr', h.bound hq]
    by_cases heq : r = q
    · subst heq
      simp only [C.change.rename_beq]
    · have hne : p.image r ≠ p.image q := fun he => heq (h.image_inj hr hq he)
      simp only [heq, hne, false_and, if_false]
  · rw [hsize] at hq
    change p.marked q = false at hm
    show ((p.right.store.define (p.image r) _ v).scope (p.image q)).bindings =
      ((p.left.store.define r name v).scope q).bindings
    by_cases heq : r = q
    · subst heq
      rw [Store.scope_define_self _ hr, Store.scope_define_self _ hr', hm, Change.rename_false]
      exact congrArg (Bindings.insert · name v) (h.bindings hr hm)
    · have hne : p.image r ≠ p.image q := fun he => heq (h.image_inj hr hq he)
      rw [Store.scope_define_of_ne _ heq, Store.scope_define_of_ne _ hne, h.bindings hq hm]
  · change (p.left.store.define r name v).bound? q other = some w at hw
    rw [Store.bound?_define _ hr] at hw
    split at hw
    · cases hw
      exact hv.mono h hg
    · exact (h.values hw).mono h hg

section AddScope

variable (p : Twins C) (e e' : ScopeRef) (marked : Bool) {r : ScopeRef}

theorem image_addScope_of_lt (hr : r.index < p.left.store.scopes.size) :
    (p.addScope e e' marked).image r = p.image r :=
  if_neg (Nat.ne_of_lt hr)

theorem image_addScope_self :
    (p.addScope e e' marked).image ⟨p.left.store.scopes.size⟩ = ⟨p.right.store.scopes.size⟩ :=
  if_pos rfl

theorem marked_addScope_of_lt (hr : r.index < p.left.store.scopes.size) :
    (p.addScope e e' marked).marked r = p.marked r :=
  if_neg (Nat.ne_of_lt hr)

theorem marked_addScope_self :
    (p.addScope e e' marked).marked ⟨p.left.store.scopes.size⟩ = marked :=
  if_pos rfl

theorem grows_addScope : p.Grows (p.addScope e e' marked) :=
  ⟨rfl, Store.grows_addScope _ _, Store.grows_addScope _ _, image_addScope_of_lt p e e' marked,
    marked_addScope_of_lt p e e' marked⟩

end AddScope

/-- A scope is opened on both sides. -/
theorem addScope (h : p.Paired) {e e' : ScopeRef} (marked : Bool)
    (he : e.index < p.left.store.scopes.size) (he' : e'.index < p.right.store.scopes.size) :
    (p.addScope e e' marked).Paired := by
  have hg := grows_addScope p e e' marked
  have hold {q : ScopeRef} (hq : q.index < p.old) : q.index < p.left.store.scopes.size :=
    Nat.lt_of_lt_of_le hq h.old_le
  have hold' {q : ScopeRef} (hq : q.index < p.old) : q.index < p.right.store.scopes.size := by
    have hlt := h.image_lt (hold hq)
    rwa [h.image_old hq] at hlt
  -- No scope of the left machine stood for the new one.
  have hnew {q : ScopeRef} (hq : q.index < p.left.store.scopes.size) :
      p.image q ≠ ⟨p.right.store.scopes.size⟩ := by
    intro heq
    have hlt := h.image_lt hq
    rw [heq] at hlt
    exact Nat.lt_irrefl _ hlt
  refine { h with
    rest := h.rest_withStores _ _
    old_le := Nat.le_trans h.old_le hg.left.scopes
    enclosing_lt := fun {q a} hq ha => h.enclosing_lt hq (hg.left.enclosing (hold hq) ▸ ha)
    enclosing_old := fun {q} hq => ?_
    image_old := fun {q} hq => (hg.image (hold hq)).trans (h.image_old hq)
    marked_old := fun {q} hq => (hg.marked (hold hq)).trans (h.marked_old hq)
    enclosedLeft := h.enclosedLeft.addScope he
    enclosedRight := h.enclosedRight.addScope he'
    image_lt := fun {q} hq => ?_
    image_inj := fun {q u} hq hu heq => ?_
    bound := fun {q} hq name => ?_
    bindings := fun {q} hq hm => ?_
    values := fun {q other w} hw => ?_
    closures := fun hf => Nat.lt_of_lt_of_le (h.closures hf) hg.left.scopes
    methods := fun hk hm => (h.methods hk hm).mono h hg
    fields := fun ho hf => (h.fields ho hf).mono h hg
    ordered := fun ho => (h.ordered ho).addScope (hold h.globals_lt) he }
  · rw [hg.left.enclosing (hold hq), hg.right.enclosing (hold' hq), h.enclosing_old hq]
  · rcases Store.lt_or_eq_of_lt_addScope hq with hq | rfl
    · rw [hg.image hq]
      exact Nat.lt_of_lt_of_le (h.image_lt hq) hg.right.scopes
    · rw [image_addScope_self]
      exact (Store.size_addScope ..).symm ▸ Nat.lt_succ_self _
  · rcases Store.lt_or_eq_of_lt_addScope hq with hq | rfl <;>
      rcases Store.lt_or_eq_of_lt_addScope hu with hu | rfl
    · rw [hg.image hq, hg.image hu] at heq
      exact h.image_inj hq hu heq
    · rw [hg.image hq, image_addScope_self] at heq
      exact absurd heq (hnew hq)
    · rw [hg.image hu, image_addScope_self] at heq
      exact absurd heq.symm (hnew hu)
    · rfl
  · show (p.right.store.addScope _).2.bound? _ _ = (p.left.store.addScope _).2.bound? q name
    rw [Store.bound?_addScope, Store.bound?_addScope]
    rcases Store.lt_or_eq_of_lt_addScope hq with hq | rfl
    · rw [hg.image hq, hg.marked hq, h.bound hq]
    · have hnone (s : Store) (name : Name) : s.bound? ⟨s.scopes.size⟩ name = none :=
        Store.bound?_eq_none_of_size_le (r := ⟨s.scopes.size⟩) (Nat.le_refl _) name
      rw [image_addScope_self, hnone, hnone]
  · rcases Store.lt_or_eq_of_lt_addScope hq with hq | rfl
    · rw [hg.image hq]
      rw [hg.marked hq] at hm
      show ((p.right.store.addScope _).2.scope (p.image q)).bindings =
        ((p.left.store.addScope _).2.scope q).bindings
      rw [Store.scope_addScope_of_lt _ _ hq, Store.scope_addScope_of_lt _ _ (h.image_lt hq),
        h.bindings hq hm]
    · rw [image_addScope_self]
      exact (congrArg Scope.bindings (Store.scope_addScope_self p.right.store (some e'))).trans
        (congrArg Scope.bindings (Store.scope_addScope_self p.left.store (some e))).symm
  · change (p.left.store.addScope (some e)).2.bound? q other = some w at hw
    rw [Store.bound?_addScope] at hw
    exact (h.values hw).mono h hg

theorem grows_addSpare (p : Twins C) (e' : ScopeRef) : p.Grows (p.addSpare e') :=
  ⟨rfl, .refl _, Store.grows_addScope _ _, fun _ => rfl, fun _ => rfl⟩

/-- A scope is opened in the right machine alone. -/
theorem addSpare (h : p.Paired) {e' : ScopeRef} (he' : e'.index < p.right.store.scopes.size) :
    (p.addSpare e').Paired := by
  have hg := grows_addSpare p e'
  refine { h with
    rest := h.rest_withStores _ _
    enclosing_old := fun {q} hq => ?_
    enclosedRight := h.enclosedRight.addScope he'
    image_lt := fun {q} hq => Nat.lt_of_lt_of_le (h.image_lt hq) hg.right.scopes
    bound := fun {q} hq name => (Store.bound?_addScope ..).trans (h.bound hq name)
    bindings := fun {q} hq hm => ?_
    values := fun hw => (h.values hw).mono h hg
    methods := fun hk hm => (h.methods hk hm).mono h hg
    fields := fun ho hf => (h.fields ho hf).mono h hg }
  · have hlt := h.image_lt (Nat.lt_of_lt_of_le hq h.old_le)
    rw [h.image_old hq] at hlt
    rw [hg.right.enclosing hlt, h.enclosing_old hq]
    rfl
  · exact (congrArg Scope.bindings
      (Store.scope_addScope_of_lt p.right.store (some e') (h.image_lt hq))).trans
        (h.bindings hq hm)

theorem grows_shows (p : Twins C) (output : Array String) (clock : Clock) (trace trace' : Trace) :
    p.Grows (p.shows output clock trace trace') :=
  ⟨rfl, .refl _, .refl _, fun _ => rfl, fun _ => rfl⟩

theorem shows (h : p.Paired) (output : Array String) (clock : Clock) {trace trace' : Trace}
    (hb : trace'.blocked = trace.blocked) (ht : C.traced → trace' = trace) :
    (p.shows output clock trace trace').Paired :=
  have hg := grows_shows p output clock trace trace'
  { h with
    rest := congrArg (fun m : Machine => { m with output, clock, trace }) h.rest
    blocked := hb
    trace := ht
    values := fun hv => (h.values hv).mono h hg
    methods := fun hk hm => (h.methods hk hm).mono h hg
    fields := fun ho hf => (h.fields ho hf).mono h hg }

theorem grows_addFunction (p : Twins C) (f f' : Function) : p.Grows (p.addFunction f f') :=
  ⟨rfl, Store.grows_addFunction _ _, Store.grows_addFunction _ _, fun _ => rfl, fun _ => rfl⟩

theorem functionName_addFunction {s' : Store} (hsize : s'.functions.size = s.functions.size)
    (hname : f'.name = f.name) (h : ∀ r, s'.functionName r = s.functionName r) (r : FunctionRef) :
    (s'.addFunction f').2.functionName r = (s.addFunction f).2.functionName r := by
  have hr := h r
  unfold Store.functionName Store.function? at hr ⊢
  simp only [Store.addFunction, Array.getElem?_push, hsize]
  split
  · simp only [Option.map_some, hname]
  · exact hr

/-- Functions that correspond are added. -/
theorem addFunction (h : p.Paired) {b : Bool} (hf : p.Corresponding b f f') :
    (p.addFunction f f').Paired := by
  have hg := grows_addFunction p f f'
  exact { h with
    rest := h.rest_withStores _ _
    values := fun hv => (h.values hv).mono h hg
    functions_size := by
      show (p.right.store.functions.push f').size = (p.left.store.functions.push f).size
      rw [Array.size_push, Array.size_push, h.functions_size]
    closures := fun {r k} hk => by
      change (p.left.store.functions.push f)[r.index]? = some k at hk
      rw [Array.getElem?_push] at hk
      split at hk
      · cases hk
        obtain ⟨g, hg, -⟩ := hf.declaration
        exact hg.left
      · exact h.closures (r := r) hk
    functionName := functionName_addFunction h.functions_size hf.name h.functionName
    methods := fun hk hm => (h.methods hk hm).mono h hg
    fields := fun ho hf => (h.fields ho hf).mono h hg
    ordered := fun ho => (h.ordered ho).congr rfl rfl }

/-- The new function has its twin. -/
theorem has_addFunction (h : p.Paired) {b : Bool} (hf : p.Corresponding b f f') :
    (p.addFunction f f').Has b ⟨p.left.store.functions.size⟩ := by
  refine ⟨f, f', Array.getElem?_push_size, ?_, hf.mono h (grows_addFunction p f f')⟩
  show (p.right.store.functions.push f')[p.left.store.functions.size]? = some f'
  rw [← h.functions_size]
  exact Array.getElem?_push_size

theorem grows_addClass (p : Twins C) (k : Class) : p.Grows (p.addClass k) :=
  ⟨rfl, Store.grows_addClass _ _, Store.grows_addClass _ _, fun _ => rfl, fun _ => rfl⟩

/-- A class is added, with methods that correspond. -/
theorem addClass (h : p.Paired) {k : Class}
    (hk : ∀ {name r}, k.methods.find? name = some r → p.Has true r)
    (hs : ∀ {c}, k.superclass = some c → p.Fits (.cls c)) : (p.addClass k).Paired := by
  have hg := grows_addClass p k
  refine { h with
    rest := h.rest_withStores _ _
    values := fun hv => (h.values hv).mono h hg
    classes := congrArg (Array.push · k) h.classes
    methods := fun {c j name r} hj hm => ?_
    fields := fun ho hf => (h.fields ho hf).mono h hg
    ordered := fun ho => (h.ordered ho).addClass fun hp => hs hp ho }
  change (p.left.store.classes.push k)[c.index]? = some j at hj
  rw [Array.getElem?_push] at hj
  split at hj
  · cases hj
    exact (hk hm).mono h hg
  · exact (h.methods (c := c) hj hm).mono h hg

theorem grows_addObject (p : Twins C) (o : Object) : p.Grows (p.addObject o) :=
  ⟨rfl, Store.grows_addObject _ _, Store.grows_addObject _ _, fun _ => rfl, fun _ => rfl⟩

/-- An object is added. -/
theorem addObject (h : p.Paired) (c : ClassRef) : (p.addObject { cls := c }).Paired := by
  have hg := grows_addObject p { cls := c }
  refine { h with
    rest := h.rest_withStores _ _
    values := fun hv => (h.values hv).mono h hg
    methods := fun hk hm => (h.methods hk hm).mono h hg
    objects := congrArg (Array.push · _) h.objects
    fields := fun {o k name v} hk hv => ?_
    ordered := fun ho => (h.ordered ho).congr rfl rfl }
  change (p.left.store.objects.push _)[o.index]? = some k at hk
  rw [Array.getElem?_push] at hk
  split at hk
  · cases hk
    cases hv
  · exact (h.fields (o := o) hk hv).mono h hg

theorem grows_setField (p : Twins C) (o : ObjectRef) (name : Name) (v : Value) :
    p.Grows (p.setField o name v) :=
  ⟨rfl, Store.grows_setField _ _ _ _, Store.grows_setField _ _ _ _, fun _ => rfl, fun _ => rfl⟩

/-- A field is set. -/
theorem setField (h : p.Paired) (o : ObjectRef) (name : Name) {v : Value} (hv : p.Fits v) :
    (p.setField o name v).Paired := by
  have hg := grows_setField p o name v
  refine { h with
    rest := h.rest_withStores _ _
    values := fun hv => (h.values hv).mono h hg
    methods := fun hk hm => (h.methods hk hm).mono h hg
    objects := by simp only [Twins.setField, withStores, Store.setField, h.objects]
    fields := fun {q k other w} hk hw => ?_
    ordered := fun ho => (h.ordered ho).congr rfl rfl }
  change (p.left.store.objects.modify o.index _)[q.index]? = some k at hk
  rw [Array.getElem?_modify] at hk
  split at hk
  · cases hq : p.left.store.objects[q.index]? with
    | none => simp [hq] at hk
    | some k₀ =>
      rw [hq] at hk
      cases hk
      rw [Bindings.find?_insert] at hw
      split at hw
      · cases hw
        exact hv.mono h hg
      · exact (h.fields (o := q) hq hw).mono h hg
  · exact (h.fields (o := q) hk hw).mono h hg

end Paired

/-! ## Steps out of a scope -/

section Reaches

variable {p : Twins C} {r r' : ScopeRef} {π : Setting}

/-- The scope on the right stands for the one on the left, if the numbers agree so far. -/
theorem Reaches.image_eq (h : p.Reaches r r' π) (hf : π.number 0 = 0) : r' = p.image r := by
  have h0 := h.scopeAt 0
  rw [hf] at h0
  exact Except.ok.inj h0

theorem Reaches.marked_eq (h : p.Reaches r r' π) : p.marked r = π.marks.headD false := by
  have h0 := h.marked (d := 0) rfl
  cases hm : π.marks <;> simpa [hm] using h0

theorem Reaches.inScopes (h : p.Reaches r r' π) (q q' : ScopeRef) :
    (p.inScopes q q').Reaches r r' π :=
  ⟨h.left, h.right, h.scopeAt, h.marked⟩

/-- The new scopes reach each other. -/
theorem Reaches.addScope (h : p.Reaches r r' π) (hp : p.Paired) (marked : Bool) :
    (p.addScope r r' marked).Reaches ⟨p.left.store.scopes.size⟩ ⟨p.right.store.scopes.size⟩
      (π.inside marked) where
  left := (Store.size_addScope ..).symm ▸ Nat.lt_succ_self _
  right := (Store.size_addScope ..).symm ▸ Nat.lt_succ_self _
  scopeAt d := by
    cases d with
    | zero => exact congrArg Except.ok (Paired.image_addScope_self p r r' marked).symm
    | succ d =>
      have hg := Paired.grows_addScope p r r' marked
      have hold := (h.mono hp hg).scopeAt d
      rw [hp.enclosedRight.scopeAt_of_grows hg.right h.right,
        hp.enclosedLeft.scopeAt_of_grows hg.left h.left] at hold
      have hout := hp.enclosedLeft.scopeAt_addScope h.left d
      have hout' := hp.enclosedRight.scopeAt_addScope h.right (π.number d)
      exact hout'.trans (hold.trans (congrArg (Except.map _) hout.symm))
  marked {d a} ha := by
    cases d with
    | zero =>
      cases ha
      exact Paired.marked_addScope_self p r r' marked
    | succ d =>
      have hout := (hp.enclosedLeft.scopeAt_addScope h.left d).symm.trans ha
      have hlt := hp.enclosedLeft.scopeAt_lt h.left hout
      exact (Paired.marked_addScope_of_lt p r r' marked hlt).trans (h.marked hout)

/-- From a spare scope there is one step more to go. -/
theorem Reaches.addSpare (h : p.Reaches r r' π) (hp : p.Paired) :
    (p.addSpare r').Reaches r ⟨p.right.store.scopes.size⟩ { π with number := (π.number · + 1) } where
  left := h.left
  right := (Store.size_addScope ..).symm ▸ Nat.lt_succ_self _
  scopeAt d := (hp.enclosedRight.scopeAt_addScope h.right (π.number d)).trans (h.scopeAt d)
  marked := h.marked

/-- Steps out of an old scope lead to old scopes. -/
theorem Paired.scopeAt_old (h : p.Paired) {r : ScopeRef} (hr : r.index < p.old) (d : Nat) :
    p.right.store.scopeAt d r = (p.left.store.scopeAt d r).map p.image ∧
      ∀ {a}, p.left.store.scopeAt d r = .ok a → a.index < p.old := by
  induction d generalizing r with
  | zero =>
    refine ⟨congrArg Except.ok (h.image_old hr).symm, fun ha => ?_⟩
    cases ha
    exact hr
  | succ d ih =>
    have he' := h.enclosing_old hr
    cases he : p.left.store.enclosing? r with
    | none =>
      rw [Store.scopeAt_succ_of_none he, Store.scopeAt_succ_of_none (he'.trans he)]
      exact ⟨rfl, fun ha => by cases ha⟩
    | some e =>
      rw [Store.scopeAt_succ_of_some he, Store.scopeAt_succ_of_some (he'.trans he)]
      exact ih (h.enclosing_lt hr he)

theorem Paired.reaches_old (h : p.Paired) {r : ScopeRef} (hr : r.index < p.old)
    (hπ : π.number = id) (hmarks : ∀ d, π.marks.getD d false = false) : p.Reaches r r π where
  left := Nat.lt_of_lt_of_le hr h.old_le
  right := by
    have hlt := h.image_lt (Nat.lt_of_lt_of_le hr h.old_le)
    rwa [h.image_old hr] at hlt
  scopeAt d := by
    rw [hπ]
    exact (h.scopeAt_old hr d).1
  marked {d a} ha := (h.marked_old ((h.scopeAt_old hr d).2 ha)).trans (hmarks d).symm

end Reaches

end Twins

/-! ## One machine twice -/

/-- All that the store refers to is there. -/
structure Store.Closed (s : Store) : Prop where
  enclosed : s.Enclosed
  closures : ∀ {r f}, s.function? r = some f → f.closure.index < s.scopes.size
  values : ∀ {r name q}, s.bound? r name = some (.function q) → (s.function? q).isSome
  methods : ∀ {c k name q}, s.class? c = some k → k.methods.find? name = some q →
    (s.function? q).isSome
  fields : ∀ {o k name q}, s.object? o = some k → k.fields.find? name = some (.function q) →
    (s.function? q).isSome

/-- All that the machine refers to is there. -/
structure Machine.Closed (m : Machine) : Prop where
  store : m.store.Closed
  globals : m.globals.index < m.store.scopes.size
  current : m.current.index < m.store.scopes.size

/-- The globals of a new machine hold the native functions and are in no other scope. -/
theorem closed_initial (detail : Nat) (clock : Clock) :
    (Machine.initial detail clock).Closed := by
  have hstore : (Machine.initial detail clock).store =
      ((Store.addScope {} none).2.define ⟨0⟩ Native.clock.name (.native .clock)) := rfl
  refine ⟨⟨?_, fun {r _} hf => ?_, ?_, fun {c _ _ _} hk => ?_, fun {o _ _ _} ho => ?_⟩,
    Nat.one_pos, Nat.one_pos⟩
  · intro r e he
    rw [hstore, Store.enclosing?_define] at he
    rcases r with ⟨_ | n⟩
    · cases he
    · have hn : (Store.addScope {} none).2.enclosing? ⟨n + 1⟩ = none :=
        Store.enclosing?_eq_none_of_size_le (Nat.le_add_left 1 n)
      cases hn.symm.trans he
  · cases (Array.getElem?_empty (i := r.index)).symm.trans hf
  · intro r name q hv
    rw [hstore, Store.bound?_define _ Nat.one_pos, Store.bound?_addScope,
      Store.bound?_eq_none_of_size_le (Nat.zero_le _)] at hv
    split at hv <;> cases hv
  · cases (Array.getElem?_empty (i := c.index)).symm.trans hk
  · cases (Array.getElem?_empty (i := o.index)).symm.trans ho

/-- The links of the machine are ordered, and the classes that it refers to are there. -/
structure Machine.Ordered (m : Machine) : Prop where
  store : m.store.Ordered m.globals
  values : ∀ {r name c}, m.store.bound? r name = some (.cls c) → c.index < m.store.classes.size
  fields : ∀ {o k name c}, m.store.object? o = some k → k.fields.find? name = some (.cls c) →
    c.index < m.store.classes.size

namespace Twins

variable {C : Correspondence} {m : Machine}

/-- A machine and itself. -/
def same (m : Machine) : Twins C :=
  ⟨m, m, m.store.scopes.size, id, fun _ => false⟩

theorem reaches_same (hr : r.index < m.store.scopes.size) (hπ : π.number = id)
    (hmarks : ∀ d, π.marks.getD d false = false) : (same m : Twins C).Reaches r r π where
  left := hr
  right := hr
  scopeAt d := by
    show m.store.scopeAt (π.number d) r = (m.store.scopeAt d r).map id
    rw [hπ, id]
    cases m.store.scopeAt d r <;> rfl
  marked _ := (hmarks _).symm

/-- A closed machine is paired with itself. -/
theorem paired_same (h : m.Closed) (ho : C.ordered → m.Ordered)
    (hself : ∀ {r} b, (m.store.function? r).isSome → (same m : Twins C).Has b r) :
    (same m : Twins C).Paired := by
  have hfits {v : Value} (hr : ∀ r, v = .function r → (m.store.function? r).isSome)
      (hc : ∀ c, v = .cls c → C.ordered → c.index < m.store.classes.size) :
      (same m : Twins C).Fits v := by
    cases v with
    | function r => exact hself false (hr r rfl)
    | cls c => exact hc c rfl
    | _ => trivial
  exact {
    rest := rfl
    blocked := rfl
    trace := fun _ => rfl
    old_le := Nat.le_refl _
    globals_lt := h.globals
    enclosing_lt := fun _ he => h.store.enclosed he
    enclosing_old := fun _ => rfl
    image_old := fun _ => rfl
    marked_old := fun _ => rfl
    enclosedLeft := h.store.enclosed
    enclosedRight := h.store.enclosed
    image_lt := id
    image_inj := fun _ _ heq => heq
    bound := fun _ _ => rfl
    bindings := fun _ _ => rfl
    values := fun hv => hfits (fun _ he => h.store.values (he ▸ hv))
      fun _ he hord => (ho hord).values (he ▸ hv)
    functions_size := rfl
    closures := h.store.closures
    functionName := fun _ => rfl
    classes := rfl
    methods := fun hk hm => hself true (h.store.methods hk hm)
    objects := rfl
    fields := fun hk hv => hfits (fun _ he => h.store.fields hk (he ▸ hv))
      fun _ he hord => (ho hord).fields hk (he ▸ hv)
    ordered := fun hord => (ho hord).store }

variable {p : Twins C}

theorem Has.isSome {r : FunctionRef} (h : p.Has b r) : (p.left.store.function? r).isSome := by
  obtain ⟨f, -, hf, -⟩ := h
  exact Option.isSome_iff_exists.2 ⟨f, hf⟩

theorem Paired.closed (h : p.Paired) : p.left.store.Closed where
  enclosed := h.enclosedLeft
  closures := h.closures
  values hv := Has.isSome (h.values hv)
  methods hk hm := (h.methods hk hm).isSome
  fields ho hv := Has.isSome (h.fields ho hv)

end Twins

end LoxLang
