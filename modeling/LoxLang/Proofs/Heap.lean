import LoxLang.Proofs.Observed

/-!
# Sound machines

What holds of an observed machine between any two steps. Scopes, functions, classes and objects are
only ever added (`Grows`). The values of a sound machine refer to what is there (`Valid`). A
function is declared at a position of some program of the session, its closure is linked to the
scopes of its display, and these were opened at its sites and bind the names that the resolver took
for ready (`Active`). Every visit in the log agrees with the resolver (`Agrees`). Each change that a
program can make to a machine keeps it sound.
-/

namespace LoxLang

variable {display : List ScopeRef} {r : ScopeRef} {d : Nat} {origins : Array (Option Site)}
  {sites : List Site} {scopes : List Frame} {v : Value} {key : Name} {name : Tree}

/-- Adding at the end of an array keeps what is there. -/
theorem getElem?_push_of_eq_some {α : Type} {xs : Array α} {i : Nat} {a : α}
    (h : xs[i]? = some a) (b : α) : (xs.push b)[i]? = some a := by
  obtain ⟨hi, rfl⟩ := Array.getElem?_eq_some_iff.1 h
  exact Array.getElem?_push_lt hi

variable {s' : Store} {e a : ScopeRef} {m : Machine}

namespace Store

variable {a r : ScopeRef} {s : Store}

/-! ## Chains -/

/-- A chain goes on with the chain of the scope around. -/
theorem chain_eq (s : Store) (r : ScopeRef) :
    s.chain r = r :: match s.enclosing? r with
      | some e => if e.index < r.index then s.chain e else []
      | none => [] := by
  rw [chain]
  cases s.enclosing? r with
  | none => rfl
  | some e =>
    dsimp only
    split <;> rfl

/-- The scopes of a chain are no younger than its first one. -/
theorem index_le_of_mem_chain (s : Store) (h : a ∈ s.chain r) : a.index ≤ r.index := by
  fun_induction chain s r with
  | case1 r e _ hlt ih =>
    rcases List.mem_cons.1 h with rfl | h
    · exact Nat.le_refl _
    · exact Nat.le_trans (ih h) (Nat.le_of_lt hlt)
  | case2 | case3 => simp_all

/-- A number of steps out from a scope is that place of its chain. -/
theorem scopeAt_of_chain (h : (s.chain r)[d]? = some a) : s.scopeAt d r = .ok a := by
  have hanc : s.ancestor d (some r) = .ok (some a) := by
    induction d generalizing r with
    | zero =>
      rw [chain_eq] at h
      cases h
      rfl
    | succ d ih =>
      rw [chain_eq] at h
      rw [ancestor]
      cases he : s.enclosing? r with
      | none => simp [he] at h
      | some e =>
        rw [he] at h
        dsimp only at h
        split at h
        · exact ih h
        · simp at h
  unfold scopeAt
  rw [hanc]

theorem lookupAt_of_chain {name : Name} {value : Value} (h : (s.chain r)[d]? = some a)
    (hb : s.bound? a name = some value) : s.lookupAt d r name = .ok value := by
  unfold lookupAt
  rw [scopeAt_of_chain h]
  dsimp only
  rw [hb]

/-! ## Growth -/

/-- Scopes stay linked and names stay bound, and functions, classes and objects stay. -/
structure Grows (s s' : Store) : Prop where
  scopes : s.scopes.size ≤ s'.scopes.size
  enclosing : ∀ {r : ScopeRef}, r.index < s.scopes.size → s'.enclosing? r = s.enclosing? r
  bound : ∀ {r : ScopeRef} {name : Name}, (s.bound? r name).isSome → (s'.bound? r name).isSome
  function : ∀ {r : FunctionRef} {f : Function}, s.function? r = some f → s'.function? r = some f
  cls : ∀ {r : ClassRef} {c : Class}, s.class? r = some c → s'.class? r = some c
  objects : s.objects.size ≤ s'.objects.size

theorem Grows.refl (s : Store) : s.Grows s :=
  ⟨Nat.le_refl _, fun _ => rfl, id, id, id, Nat.le_refl _⟩

theorem Grows.trans {s'' : Store} (h : s.Grows s') (h' : s'.Grows s'') : s.Grows s'' where
  scopes := Nat.le_trans h.scopes h'.scopes
  enclosing hr := (h'.enclosing (Nat.lt_of_lt_of_le hr h.scopes)).trans (h.enclosing hr)
  bound hb := h'.bound (h.bound hb)
  function hf := h'.function (h.function hf)
  cls hc := h'.cls (h.cls hc)
  objects := Nat.le_trans h.objects h'.objects

/-- The chain of a scope does not change. -/
theorem Grows.chain (h : s.Grows s') (hr : r.index < s.scopes.size) : s'.chain r = s.chain r := by
  fun_induction Store.chain s r with
  | case1 r e he hlt ih =>
    rw [chain_eq, h.enclosing hr, he]
    simp only [hlt, if_true]
    rw [ih (Nat.lt_trans hlt hr)]
  | case2 r e he hlt =>
    rw [chain_eq, h.enclosing hr, he]
    simp only [hlt, if_false]
  | case3 r he => rw [chain_eq, h.enclosing hr, he]

theorem size_define (s : Store) (r : ScopeRef) (name : Name) (value : Value) :
    (s.define r name value).scopes.size = s.scopes.size := by
  simp [define]

/-- A definition keeps all that was there. -/
theorem grows_define (h : r.index < s.scopes.size) (name : Name) (value : Value) :
    s.Grows (s.define r name value) where
  scopes := Nat.le_of_eq (size_define ..).symm
  enclosing _ := enclosing?_define ..
  bound hb := by
    rw [bound?_define s h]
    split
    · rfl
    · exact hb
  function := id
  cls := id
  objects := Nat.le_refl _

theorem bound?_eq_none_of_size_le (h : s.scopes.size ≤ r.index) (name : Name) :
    s.bound? r name = none := by
  simp [bound?, scope, Array.getD_eq_getD_getElem?, h]

theorem bound?_addScope (s : Store) (enclosing : Option ScopeRef) (r : ScopeRef) (name : Name) :
    (s.addScope enclosing).2.bound? r name = s.bound? r name := by
  rcases Nat.lt_trichotomy r.index s.scopes.size with h | h | h
  · rw [bound?, scope_addScope_of_lt s enclosing h]
    rfl
  · obtain rfl : r = (s.addScope enclosing).1 := by cases r; simp_all [addScope]
    rw [bound?, scope_addScope_self, bound?_eq_none_of_size_le (Nat.le_of_eq h.symm)]
    rfl
  · rw [bound?_eq_none_of_size_le (Nat.le_of_lt h), bound?_eq_none_of_size_le]
    simp [addScope]
    omega

theorem grows_addScope (s : Store) (enclosing : Option ScopeRef) :
    s.Grows (s.addScope enclosing).2 where
  scopes := by simp [addScope]
  enclosing hr := by rw [enclosing?, scope_addScope_of_lt s enclosing hr]; rfl
  bound hb := by rwa [bound?_addScope]
  function := id
  cls := id
  objects := Nat.le_refl _

/-- A new scope with one name binds nothing else. -/
theorem entries_single (s : Store) (enclosing : Option ScopeRef) (key : Name) (v : Value) :
    (((s.addScope enclosing).2.define (s.addScope enclosing).1 key v).scope
      (s.addScope enclosing).1).bindings.entries = [(key, v)] := by
  rw [scope_define_self _ (by simp [addScope]), scope_addScope_self]
  rfl

/-- A new scope is linked to the scope around it. -/
theorem chain_addScope (h : e.index < s.scopes.size) :
    (s.addScope (some e)).2.chain (s.addScope (some e)).1 =
      (s.addScope (some e)).1 :: s.chain e := by
  rw [chain_eq, enclosing?, scope_addScope_self]
  dsimp only
  rw [if_pos (by exact h), (grows_addScope s _).chain h]

theorem grows_addFunction (s : Store) (f : Function) : s.Grows (s.addFunction f).2 where
  scopes := Nat.le_refl _
  enclosing _ := rfl
  bound := id
  function hf := getElem?_push_of_eq_some hf f
  cls := id
  objects := Nat.le_refl _

theorem grows_addClass (s : Store) (c : Class) : s.Grows (s.addClass c).2 where
  scopes := Nat.le_refl _
  enclosing _ := rfl
  bound := id
  function := id
  cls hk := getElem?_push_of_eq_some hk c
  objects := Nat.le_refl _

theorem grows_addObject (s : Store) (o : Object) : s.Grows (s.addObject o).2 where
  scopes := Nat.le_refl _
  enclosing _ := rfl
  bound := id
  function := id
  cls := id
  objects := by simp [addObject]

theorem grows_setField (s : Store) (r : ObjectRef) (name : Name) (value : Value) :
    s.Grows (s.setField r name value) where
  scopes := Nat.le_refl _
  enclosing _ := rfl
  bound := id
  function := id
  cls := id
  objects := by simp [setField]

end Store

open Resolver (Frame depthOf? bindName bindReady thisFrame Ready)

/-- The record grows with the machine. -/
structure Watched.Grows (w w' : Watched) : Prop where
  store : w.machine.store.Grows w'.machine.store
  globals : w'.machine.globals = w.machine.globals
  blocked : w'.machine.trace.blocked = w.machine.trace.blocked
  detail : w'.machine.detail = w.machine.detail
  origins : ∀ {i : Nat} {o : Option Site}, w.origins[i]? = some o → w'.origins[i]? = some o
  subjects : ∀ {i : Nat} {o : Option Subject}, w.subjects[i]? = some o → w'.subjects[i]? = some o
  homes : ∀ {i : Nat} {h : Home}, w.homes[i]? = some h → w'.homes[i]? = some h

theorem Watched.Grows.refl (w : Watched) : w.Grows w :=
  ⟨.refl _, rfl, rfl, rfl, id, id, id⟩

variable {w w' : Watched}

theorem Watched.Grows.trans {w'' : Watched} (h : w.Grows w') (h' : w'.Grows w'') : w.Grows w'' where
  store := h.store.trans h'.store
  globals := h'.globals.trans h.globals
  blocked := h'.blocked.trans h.blocked
  detail := h'.detail.trans h.detail
  origins ho := h'.origins (h.origins ho)
  subjects ho := h'.subjects (h.subjects ho)
  homes hh := h'.homes (h.homes hh)

/-! ## Displays -/

/-- The scope exists, and the scopes from it outwards are those of the display and the globals. -/
structure Linked (w : Watched) (display : List ScopeRef) (r : ScopeRef) : Prop where
  chain : w.machine.store.chain r = display ++ [w.machine.globals]
  lt_size : r.index < w.machine.store.scopes.size

theorem Linked.mono (h : Linked w display r) (hg : w.Grows w') : Linked w' display r where
  chain := by rw [hg.store.chain h.lt_size, h.chain, hg.globals]
  lt_size := Nat.lt_of_lt_of_le h.lt_size hg.store.scopes

theorem Linked.getElem? (h : Linked w display r) (hd : display[d]? = some a) :
    (w.machine.store.chain r)[d]? = some a := by
  rw [h.chain, List.getElem?_append_left (List.getElem?_eq_some_iff.1 hd).1]
  exact hd

/-- Every scope of a display exists. -/
theorem Linked.lt_of_getElem? (h : Linked w display r) (hd : display[d]? = some a) :
    a.index < w.machine.store.scopes.size :=
  Nat.lt_of_le_of_lt
    (w.machine.store.index_le_of_mem_chain (List.mem_of_getElem? (h.getElem? hd))) h.lt_size

/-- The scopes of the display were opened at the sites, and bind the names that are ready. -/
structure Active (w : Watched) (display : List ScopeRef) (scopes : List Frame)
    (sites : List Site) : Prop where
  origins : display.map (fun r => w.origins[r.index]?) = sites.map (some ∘ some)
  length : scopes.length = display.length
  bound : ∀ {d : Nat} {r : ScopeRef} {key : Name}, display[d]? = some r → Ready scopes d key →
    (w.machine.store.bound? r key).isSome

variable {origins' : Array (Option Site)}

/-- What is known of the origins of scopes stays known. -/
theorem map_origins_mono (h : display.map (fun r => origins[r.index]?) = sites.map (some ∘ some))
    (hg : ∀ {i : Nat} {o : Option Site}, origins[i]? = some o → origins'[i]? = some o) :
    display.map (fun r => origins'[r.index]?) = sites.map (some ∘ some) := by
  rw [← h, List.map_inj_left]
  intro r hr
  obtain ⟨site, -, hsite⟩ := List.mem_map.1 (h ▸ List.mem_map_of_mem hr)
  rw [← hsite]
  exact hg hsite.symm

theorem Active.mono (h : Active w display scopes sites) (hg : w.Grows w') :
    Active w' display scopes sites where
  origins := map_origins_mono h.origins hg.origins
  length := h.length
  bound hd hr := hg.store.bound (h.bound hd hr)

/-! ## Values -/

/-- The function is declared at the position, with the given scopes around its parameters. -/
inductive Declared (roots : List Tree) (f : Function) (p : Position) (outer : List Frame)
    (sites : List Site) : Prop where
  | intro {name body : Tree} {params : List Tree}
      (declaration : f.declaration = .funDecl name (.list params) body)
      (names : ∀ param ∈ params, param.IsName)
      (located : Located roots (p.below 2) body
        ⟨.body, params.foldl bindReady (.empty :: outer)⟩)
      (sitesOf_body : sitesOf roots (p.below 2) = ⟨.function, p⟩ :: sites)

/-- The function can be called: its scopes are active, and an initializer is bound to an object. -/
def Callable (roots : List Tree) (w : Watched) (r : FunctionRef) : Prop :=
  ∃ f home outer sites, w.machine.store.function? r = some f ∧ w.homes[r.index]? = some home ∧
    Declared roots f home.position outer sites ∧ Linked w home.display f.closure ∧
    Active w home.display outer sites ∧
    (f.isInitializer = true → (w.machine.store.bound? f.closure (.ofText "this")).isSome)

/-- The function is a method that is not bound yet: but for the scope of `this` its scopes are
active. -/
def IsMethod (roots : List Tree) (w : Watched) (r : FunctionRef) : Prop :=
  ∃ f home outer sites, w.machine.store.function? r = some f ∧ w.homes[r.index]? = some home ∧
    Declared roots f home.position (thisFrame :: outer)
      (⟨.receiver, home.position.classOfMethod⟩ :: sites) ∧
    Linked w home.display f.closure ∧ Active w home.display outer sites

/-- The value refers to what is there. -/
def Valid (roots : List Tree) (w : Watched) : Value → Prop
  | .function r => Callable roots w r
  | .cls c => ∃ k, w.machine.store.class? c = some k
  | .object o => o.index < w.machine.store.objects.size
  | _ => True

variable {roots : List Tree} {w w' : Watched}

theorem Callable.mono {r : FunctionRef} (h : Callable roots w r) (hg : w.Grows w') :
    Callable roots w' r := by
  obtain ⟨f, home, outer, sites, hf, hh, hd, hl, ha, hi⟩ := h
  exact ⟨f, home, outer, sites, hg.store.function hf, hg.homes hh, hd, hl.mono hg, ha.mono hg,
    fun h => hg.store.bound (hi h)⟩

theorem IsMethod.mono {r : FunctionRef} (h : IsMethod roots w r) (hg : w.Grows w') :
    IsMethod roots w' r := by
  obtain ⟨f, home, outer, sites, hf, hh, hd, hl, ha⟩ := h
  exact ⟨f, home, outer, sites, hg.store.function hf, hg.homes hh, hd, hl.mono hg, ha.mono hg⟩

theorem Valid.mono (h : Valid roots w v) (hg : w.Grows w') : Valid roots w' v := by
  cases v with
  | function r => exact Callable.mono h hg
  | cls c =>
    obtain ⟨k, hk⟩ := h
    exact ⟨k, hg.store.cls hk⟩
  | object o => exact Nat.lt_of_lt_of_le h hg.store.objects
  | _ => trivial

/-! ## What scopes hold -/

/-- The scope holds what it was opened for. That of a bound method holds only `this`, that of a
class only `super`, and that of a call is right inside the closure of the function. -/
def Holds (m : Machine) (homes : Array Home) (r : ScopeRef) : Option Site → Option Subject → Prop
  | none, none | some ⟨.block, _⟩, some .block => True
  | some ⟨.function, p⟩, some (.call callee) => ∃ f home, m.store.function? callee = some f ∧
      homes[callee.index]? = some home ∧ home.position = p ∧ m.store.enclosing? r = some f.closure
  | some ⟨.receiver, _⟩, some (.receiver this) =>
      (m.store.scope r).bindings.entries = [(.ofText "this", this)] ∧ ∃ o, this = .object o
  | some ⟨.parent, _⟩, some (.parent c) =>
      (m.store.scope r).bindings.entries = [(.ofText "super", .cls c)]
  | _, _ => False

/-- All scopes of the machine hold what they were opened for, and its functions are still there. -/
structure Kept (m : Machine) (w : Watched) : Prop where
  holds : ∀ r : ScopeRef, r.index < m.store.scopes.size → ∃ origin subject,
    w.origins[r.index]? = some origin ∧ w.subjects[r.index]? = some subject ∧
      Holds m w.homes r origin subject
  functions : ∀ {r : FunctionRef} {f : Function}, m.store.function? r = some f →
    w.machine.store.function? r = some f

/-- The scope may get more names. -/
def Open (w : Watched) (r : ScopeRef) : Prop :=
  ∃ origin, w.origins[r.index]? = some origin ∧ ∀ site ∈ origin, site.opening.isHidden = false

theorem Open.mono (h : Open w r) (hg : w.Grows w') : Open w' r := by
  obtain ⟨origin, ho, hsite⟩ := h
  exact ⟨origin, hg.origins ho, hsite⟩

/-- A scope holds the same if it is linked as before, and has the same names if it is hidden. -/
theorem Holds.mono {m' : Machine} {homes homes' : Array Home} {origin : Option Site}
    {subject : Option Subject} (h : Holds m homes r origin subject)
    (hf : ∀ {r : FunctionRef} {f : Function}, m.store.function? r = some f →
      m'.store.function? r = some f)
    (hh : ∀ {i : Nat} {h : Home}, homes[i]? = some h → homes'[i]? = some h)
    (henclosing : m'.store.enclosing? r = m.store.enclosing? r)
    (hscope : (∃ site ∈ origin, site.opening.isHidden = true) → m'.store.scope r = m.store.scope r) :
    Holds m' homes' r origin subject := by
  unfold Holds at h ⊢
  split at h
  · trivial
  · trivial
  · obtain ⟨f, home, hcallee, hhome, hp, he⟩ := h
    exact ⟨f, home, hf hcallee, hh hhome, hp, henclosing.trans he⟩
  · rwa [hscope ⟨_, rfl, rfl⟩]
  · rwa [hscope ⟨_, rfl, rfl⟩]
  · exact h.elim

/-- What a machine has held it has held for good. -/
theorem Kept.mono (h : Kept m w) (hg : w.Grows w') : Kept m w' := by
  refine ⟨fun r hr => ?_, fun hf => hg.store.function (h.functions hf)⟩
  obtain ⟨origin, subject, ho, hs, hholds⟩ := h.holds r hr
  exact ⟨origin, subject, hg.origins ho, hg.subjects hs,
    hholds.mono id hg.homes rfl fun _ => rfl⟩

/-- A machine with the same scopes holds the same. -/
theorem Kept.of_scopes (h : Kept w.machine w) (hg : w.Grows w')
    (hscopes : w'.machine.store.scopes = w.machine.store.scopes) : Kept w'.machine w' := by
  refine ⟨fun r hr => ?_, id⟩
  rw [hscopes] at hr
  obtain ⟨origin, subject, ho, hs, hholds⟩ := h.holds r hr
  refine ⟨origin, subject, hg.origins ho, hg.subjects hs,
    hholds.mono hg.store.function hg.homes (hg.store.enclosing hr) fun _ => ?_⟩
  unfold Store.scope
  rw [hscopes]

/-- The methods of all classes are there. -/
def Staffed (m : Machine) : Prop :=
  ∀ {c : ClassRef} {k : Class} {key : Name} {r : FunctionRef},
    m.store.class? c = some k → k.methods.find? key = some r → ∃ f, m.store.function? r = some f

/-! ## Visits -/

/-- The use at a tree has the depth that the open scopes give it. A name that is read is bound in
the scope of the display that the depth leads to. -/
def Found (m : Machine) (display : List ScopeRef) (scopes : List Frame) : Tree → Prop
  | .ident name depth => ∀ key, name.asName = .ok key → depth = depthOf? scopes key ∧
      ∀ d, depth = some d → ∃ r, display[d]? = some r ∧ (m.store.bound? r key).isSome
  | .assign name _ depth => ∀ key, name.asName = .ok key → depth = depthOf? scopes key
  | .thisRef _ depth => ∃ d r, depth = some d ∧ depthOf? scopes (.ofText "this") = some d ∧
      display[d]? = some r ∧ (m.store.bound? r (.ofText "this")).isSome
  | .superRef _ _ depth => ∃ d r r' c, depth = some (d + 1) ∧
      depthOf? scopes (.ofText "super") = some (d + 1) ∧
      depthOf? scopes (.ofText "this") = some d ∧
      display[d + 1]? = some r ∧ m.store.bound? r (.ofText "super") = some (.cls c) ∧
      display[d]? = some r' ∧ (m.store.bound? r' (.ofText "this")).isSome
  | _ => True

/-- The scopes of the machine are those that the resolver had open at the tree. -/
structure Agrees (roots : List Tree) (origins : Array (Option Site)) (c : Context) (v : Visit) :
    Prop where
  located : Located roots v.position v.tree c
  role : c.role ≠ .body
  chain : v.machine.store.chain v.machine.current = v.display ++ [v.machine.globals]
  globals : v.machine.store.chain v.machine.globals = [v.machine.globals]
  first : v.machine.globals = ⟨0⟩
  length : c.scopes.length = v.display.length
  origins : v.display.map (fun r => origins[r.index]?) =
    (sitesOf roots v.position).map (some ∘ some)
  found : Found v.machine v.display c.scopes v.tree

variable {c : Context}

theorem Agrees.mono {v : Visit} (h : Agrees roots origins c v)
    (hg : ∀ {i : Nat} {o : Option Site}, origins[i]? = some o → origins'[i]? = some o) :
    Agrees roots origins' c v :=
  { h with origins := map_origins_mono h.origins hg }

/-! ## Sound machines -/

/-- A name that is a keyword is bound to what it stands for. -/
structure Reserved (key : Name) (v : Value) : Prop where
  super : (key == .ofText "super") = true → ∃ c, v = .cls c
  this : (key == .ofText "this") = true → ∃ o, v = .object o

theorem Reserved.congr {other : Name} (h : Reserved key v) (hk : (key == other) = true) :
    Reserved other v where
  super ho := h.super (PartialEquivBEq.trans hk ho)
  this ho := h.this (PartialEquivBEq.trans hk ho)

/-- An identifier can be bound to any value. -/
theorem reserved_ofText {s : String} (hs : Token.Kind.ofWord s = .identifier) (v : Value) :
    Reserved (.ofText s) v where
  super h := by simp [ofText_beq_keyword hs "super" (by decide)] at h
  this h := by simp [ofText_beq_keyword hs "this" (by decide)] at h

/-- The machine refers only to what is there, its functions are at home in the programs of the
session, and every visit agrees with the resolver. -/
structure Sound (roots : List Tree) (w : Watched) : Prop where
  size_origins : w.origins.size = w.machine.store.scopes.size
  size_subjects : w.subjects.size = w.origins.size
  size_homes : w.homes.size = w.machine.store.functions.size
  globals : Linked w [] w.machine.globals
  first : w.machine.globals = ⟨0⟩
  outermost : w.origins[0]? = some none
  values : ∀ {r : ScopeRef} {key : Name} {v : Value},
    w.machine.store.bound? r key = some v → Valid roots w v
  supers : ∀ {r : ScopeRef} {v : Value},
    w.machine.store.bound? r (.ofText "super") = some v → ∃ c, v = .cls c
  receivers : ∀ {r : ScopeRef} {v : Value},
    w.machine.store.bound? r (.ofText "this") = some v → ∃ o, v = .object o
  names : ∀ {c : ClassRef} {k : Class},
    w.machine.store.class? c = some k → ∃ s, k.name = .ofText s
  methods : ∀ {c : ClassRef} {k : Class} {key : Name} {r : FunctionRef},
    w.machine.store.class? c = some k → k.methods.find? key = some r → IsMethod roots w r
  fields : ∀ {o : ObjectRef} {x : Object} {key : Name} {v : Value},
    w.machine.store.object? o = some x → x.fields.find? key = some v → Valid roots w v
  visits : ∀ v ∈ w.visits, ∃ c, Agrees roots w.origins c v
  kept : Kept w.machine w
  held : ∀ v ∈ w.visits, Kept v.machine w
  staffed : ∀ v ∈ w.visits, Staffed v.machine

/-- A machine stays sound if all that is new is sound. -/
theorem Sound.of_grows (h : Sound roots w) (hg : w.Grows w')
    (size_origins : w'.origins.size = w'.machine.store.scopes.size)
    (size_subjects : w'.subjects.size = w'.origins.size)
    (size_homes : w'.homes.size = w'.machine.store.functions.size)
    (kept : Kept w'.machine w')
    (values : ∀ {r : ScopeRef} {key : Name} {v : Value},
      w'.machine.store.bound? r key = some v → w.machine.store.bound? r key = some v ∨
        Valid roots w' v ∧ Reserved key v)
    (classes : ∀ {c : ClassRef} {k : Class},
      w'.machine.store.class? c = some k → w.machine.store.class? c = some k ∨
        (∃ s, k.name = .ofText s) ∧
          ∀ {key : Name} {r : FunctionRef}, k.methods.find? key = some r → IsMethod roots w' r)
    (fields : ∀ {o : ObjectRef} {x : Object} {key : Name} {v : Value},
      w'.machine.store.object? o = some x → x.fields.find? key = some v → Valid roots w' v)
    (visits : ∀ {v : Visit}, v ∈ w'.visits →
      v ∈ w.visits ∨ (∃ c, Agrees roots w'.origins c v) ∧ Kept v.machine w' ∧
        Staffed v.machine) :
    Sound roots w' where
  size_origins := size_origins
  size_subjects := size_subjects
  size_homes := size_homes
  kept := kept
  globals := hg.globals ▸ h.globals.mono hg
  first := hg.globals.trans h.first
  outermost := hg.origins h.outermost
  values hv := by
    rcases values hv with hv | ⟨hv, -⟩
    · exact (h.values hv).mono hg
    · exact hv
  supers hv := by
    rcases values hv with hv | ⟨-, hs⟩
    · exact h.supers hv
    · exact hs.super (by decide)
  receivers hv := by
    rcases values hv with hv | ⟨-, hs⟩
    · exact h.receivers hv
    · exact hs.this (by decide)
  names hc := by
    rcases classes hc with hc | ⟨hn, -⟩
    · exact h.names hc
    · exact hn
  methods hc hr := by
    rcases classes hc with hc | ⟨-, hm⟩
    · exact (h.methods hc hr).mono hg
    · exact hm hr
  fields := fields
  visits v hv := by
    rcases visits hv with hv | hv
    · obtain ⟨c, hc⟩ := h.visits v hv
      exact ⟨c, hc.mono hg.origins⟩
    · exact hv.1
  held v hv := by
    rcases visits hv with hv | hv
    · exact (h.held v hv).mono hg
    · exact hv.2.1
  staffed v hv := by
    rcases visits hv with hv | hv
    · exact h.staffed v hv
    · exact hv.2.2

theorem Sound.staffed_machine (h : Sound roots w) : Staffed w.machine := by
  intro c k key r hc hr
  obtain ⟨f, _, _, _, hf, _⟩ := h.methods hc hr
  exact ⟨f, hf⟩

/-- The fields of objects that have not changed. -/
theorem Sound.fields_of_grows (h : Sound roots w) (hg : w.Grows w')
    (ho : w'.machine.store.objects = w.machine.store.objects) {o : ObjectRef} {x : Object}
    (hx : w'.machine.store.object? o = some x) (hv : x.fields.find? key = some v) :
    Valid roots w' v := by
  unfold Store.object? at hx
  rw [ho] at hx
  exact (h.fields hx hv).mono hg

/-! ## More programs -/

theorem Declared.append {f : Function} {p : Position} {outer : List Frame}
    (h : Declared roots f p outer sites) (more : List Tree) :
    Declared (roots ++ more) f p outer sites := by
  obtain ⟨hf, hparams, hbody, hsites⟩ := h
  exact ⟨hf, hparams, hbody.append more, (hbody.sitesOf_append more).trans hsites⟩

theorem Callable.append {r : FunctionRef} (h : Callable roots w r) (more : List Tree) :
    Callable (roots ++ more) w r := by
  obtain ⟨f, home, outer, sites, hf, hh, hd, hrest⟩ := h
  exact ⟨f, home, outer, sites, hf, hh, hd.append more, hrest⟩

theorem IsMethod.append {r : FunctionRef} (h : IsMethod roots w r) (more : List Tree) :
    IsMethod (roots ++ more) w r := by
  obtain ⟨f, home, outer, sites, hf, hh, hd, hrest⟩ := h
  exact ⟨f, home, outer, sites, hf, hh, hd.append more, hrest⟩

theorem Valid.append (h : Valid roots w v) (more : List Tree) : Valid (roots ++ more) w v := by
  cases v with
  | function r => exact Callable.append h more
  | _ => exact h

theorem Agrees.append {v : Visit} (h : Agrees roots origins c v) (more : List Tree) :
    Agrees (roots ++ more) origins c v :=
  { h with
    located := h.located.append more
    origins := by rw [h.located.sitesOf_append]; exact h.origins }

/-- A machine stays sound when the session gets more programs. -/
theorem Sound.append (h : Sound roots w) (more : List Tree) : Sound (roots ++ more) w :=
  { h with
    values := fun hv => (h.values hv).append more
    methods := fun hc hr => (h.methods hc hr).append more
    fields := fun hx hv => (h.fields hx hv).append more
    visits := fun v hv => by
      obtain ⟨c, hc⟩ := h.visits v hv
      exact ⟨c, hc.append more⟩ }

/-! ## Changes of the machine -/

namespace Watched

/-- A name is bound in a scope. -/
def define (w : Watched) (r : ScopeRef) (name : Name) (v : Value) : Watched :=
  { w with machine := { w.machine with store := w.machine.store.define r name v } }

/-- A scope is added for a site and a subject. -/
def addScope (w : Watched) (site : Site) (subject : Subject) (enclosing : ScopeRef) : Watched :=
  { w with
    machine := { w.machine with store := (w.machine.store.addScope (some enclosing)).2 }
    origins := w.origins.push (some site)
    subjects := w.subjects.push (some subject) }

/-- The scope that is added next. -/
def nextScope (w : Watched) : ScopeRef := ⟨w.machine.store.scopes.size⟩

/-- A function is added with its home. -/
def addFunction (w : Watched) (home : Home) (f : Function) : Watched :=
  { w with
    machine := { w.machine with store := (w.machine.store.addFunction f).2 }
    homes := w.homes.push home }

/-- The function that is added next. -/
def nextFunction (w : Watched) : FunctionRef := ⟨w.machine.store.functions.size⟩

/-- A class is added. -/
def addClass (w : Watched) (c : Class) : Watched :=
  { w with machine := { w.machine with store := (w.machine.store.addClass c).2 } }

/-- An object is added. -/
def addObject (w : Watched) (o : Object) : Watched :=
  { w with machine := { w.machine with store := (w.machine.store.addObject o).2 } }

/-- A field is set. -/
def setField (w : Watched) (o : ObjectRef) (name : Name) (v : Value) : Watched :=
  { w with machine := { w.machine with store := w.machine.store.setField o name v } }

theorem grows_define (h : r.index < w.machine.store.scopes.size) (name : Name) (v : Value) :
    w.Grows (w.define r name v) :=
  ⟨Store.grows_define h name v, rfl, rfl, rfl, id, id, id⟩

theorem grows_addScope (w : Watched) (site : Site) (subject : Subject) (enclosing : ScopeRef) :
    w.Grows (w.addScope site subject enclosing) :=
  ⟨Store.grows_addScope _ _, rfl, rfl, rfl, fun h => getElem?_push_of_eq_some h _,
    fun h => getElem?_push_of_eq_some h _, id⟩

theorem grows_addFunction (w : Watched) (home : Home) (f : Function) :
    w.Grows (w.addFunction home f) :=
  ⟨Store.grows_addFunction _ _, rfl, rfl, rfl, id, id, fun h => getElem?_push_of_eq_some h _⟩

theorem grows_addClass (w : Watched) (c : Class) : w.Grows (w.addClass c) :=
  ⟨Store.grows_addClass _ _, rfl, rfl, rfl, id, id, id⟩

theorem grows_addObject (w : Watched) (o : Object) : w.Grows (w.addObject o) :=
  ⟨Store.grows_addObject _ _, rfl, rfl, rfl, id, id, id⟩

theorem grows_setField (w : Watched) (o : ObjectRef) (name : Name) (v : Value) :
    w.Grows (w.setField o name v) :=
  ⟨Store.grows_setField _ _ _ _, rfl, rfl, rfl, id, id, id⟩

end Watched

namespace Sound

variable (h : Sound roots w) {v : Value} {site : Site} {subject : Subject} {e : ScopeRef}

include h

/-- A definition in an open scope keeps the machine sound. -/
theorem define (hr : r.index < w.machine.store.scopes.size) (ho : Open w r) {name : Name}
    (hv : Valid roots (w.define r name v) v) (hs : Reserved name v) :
    Sound roots (w.define r name v) := by
  have hg := Watched.grows_define hr name v
  refine h.of_grows hg ?_ h.size_subjects h.size_homes ?_ ?_ .inl (h.fields_of_grows hg rfl) .inl
  · exact h.size_origins.trans (Store.size_define ..).symm
  · refine ⟨fun r' hr' => ?_, id⟩
    rw [Watched.define, Store.size_define] at hr'
    obtain ⟨origin, subject, horigin, hsubject, hholds⟩ := h.kept.holds r' hr'
    refine ⟨origin, subject, horigin, hsubject, ?_⟩
    refine hholds.mono id id (Store.enclosing?_define ..) fun ⟨site, hsite, hidden⟩ => ?_
    refine Store.scope_define_of_ne _ (fun he => ?_) name v
    obtain ⟨origin', horigin', hopen⟩ := ho
    rw [he, horigin] at horigin'
    cases horigin'
    rw [hopen site hsite] at hidden
    cases hidden
  · intro r' key v' hb
    rw [Watched.define, Store.bound?_define _ hr] at hb
    split at hb
    · next he =>
      cases hb
      exact .inr ⟨hv, hs.congr he.2⟩
    · exact .inl hb

/-- The scopes that were there hold the same, and the new one holds what it was opened for. -/
theorem kept_new (hg : (w.addScope site subject e).Grows w')
    (hsize : w'.machine.store.scopes.size = w.machine.store.scopes.size + 1)
    (hscope : ∀ r : ScopeRef, r.index < w.machine.store.scopes.size →
      w'.machine.store.scope r = w.machine.store.scope r)
    (hnew : Holds w'.machine w'.homes w.nextScope (some site) (some subject)) :
    Kept w'.machine w' := by
  have hg' := (w.grows_addScope site subject e).trans hg
  refine ⟨fun r hr => ?_, id⟩
  rw [hsize] at hr
  rcases Nat.lt_succ_iff_lt_or_eq.1 hr with hlt | he
  · obtain ⟨origin, subject', ho, hs, hholds⟩ := h.kept.holds r hlt
    exact ⟨origin, subject', hg'.origins ho, hg'.subjects hs, hholds.mono hg'.store.function
      hg'.homes (hg'.store.enclosing hlt) fun _ => hscope r hlt⟩
  · obtain rfl : r = w.nextScope := by
      cases r
      exact congrArg ScopeRef.mk he
    refine ⟨some site, some subject, hg.origins ?_, hg.subjects ?_, hnew⟩
    · simp [Watched.addScope, Watched.nextScope, ← h.size_origins]
    · simp [Watched.addScope, Watched.nextScope, ← h.size_origins, ← h.size_subjects]

/-- A scope can be opened for what it holds. -/
theorem addScope (hnew : Holds (w.addScope site subject e).machine w.homes w.nextScope (some site)
      (some subject)) : Sound roots (w.addScope site subject e) := by
  have hg := w.grows_addScope site subject e
  refine h.of_grows hg ?_ ?_ h.size_homes ?_ ?_ .inl (h.fields_of_grows hg rfl) .inl
  · simp [Watched.addScope, Store.addScope, h.size_origins]
  · simp [Watched.addScope, h.size_subjects]
  · refine h.kept_new (.refl _) ?_ (fun r hr => Store.scope_addScope_of_lt _ _ hr) hnew
    simp [Watched.addScope, Store.addScope]
  · intro r key v hb
    rw [Watched.addScope, Store.bound?_addScope] at hb
    exact .inl hb

/-- A new scope with one name, which is all that it will ever bind. -/
theorem addSingle (hv : Valid roots ((w.addScope site subject e).define w.nextScope key v) v)
    (hs : Reserved key v)
    (hnew : Holds ((w.addScope site subject e).define w.nextScope key v).machine w.homes w.nextScope
      (some site) (some subject)) :
    Sound roots ((w.addScope site subject e).define w.nextScope key v) := by
  have hr : w.nextScope.index < (w.addScope site subject e).machine.store.scopes.size := by
    simp [Watched.addScope, Watched.nextScope, Store.addScope]
  have hg₁ := w.grows_addScope site subject e
  have hg₂ := Watched.grows_define hr key v
  have hsize : ((w.addScope site subject e).define w.nextScope key v).machine.store.scopes.size =
      w.machine.store.scopes.size + 1 := by
    rw [Watched.define, Store.size_define]
    simp [Watched.addScope, Store.addScope]
  refine h.of_grows (hg₁.trans hg₂) ?_ ?_ h.size_homes ?_ ?_ .inl
    (h.fields_of_grows (hg₁.trans hg₂) rfl) .inl
  · rw [hsize]
    simp [Watched.define, Watched.addScope, h.size_origins]
  · simp [Watched.define, Watched.addScope, h.size_subjects]
  · refine h.kept_new hg₂ hsize (fun r hlt => ?_) hnew
    have hne : w.nextScope ≠ r := by
      rintro rfl
      exact Nat.lt_irrefl _ hlt
    exact (Store.scope_define_of_ne _ hne _ _).trans (Store.scope_addScope_of_lt _ _ hlt)
  · intro r key' v' hb
    rw [Watched.define, Store.bound?_define _ hr] at hb
    split at hb
    · next he =>
      cases hb
      exact .inr ⟨hv, hs.congr he.2⟩
    · rw [Watched.addScope, Store.bound?_addScope] at hb
      exact .inl hb

theorem addFunction (home : Home) (f : Function) : Sound roots (w.addFunction home f) := by
  have hg := w.grows_addFunction home f
  refine h.of_grows hg h.size_origins h.size_subjects ?_ (h.kept.of_scopes hg rfl) .inl .inl
    (h.fields_of_grows hg rfl) .inl
  simp [Watched.addFunction, Store.addFunction, h.size_homes]

/-- A class can be added with methods that were made. -/
theorem addClass {k : Class} (hn : ∃ s, k.name = .ofText s)
    (hm : ∀ {key : Name} {r : FunctionRef}, k.methods.find? key = some r → IsMethod roots w r) :
    Sound roots (w.addClass k) := by
  have hg := w.grows_addClass k
  refine h.of_grows hg h.size_origins h.size_subjects h.size_homes (h.kept.of_scopes hg rfl) .inl ?_
    (h.fields_of_grows hg rfl) .inl
  intro c k' hc
  unfold Watched.addClass Store.addClass Store.class? at hc
  rw [Array.getElem?_push] at hc
  split at hc
  · cases hc
    exact .inr ⟨hn, fun hr => (hm hr).mono hg⟩
  · exact .inl hc

/-- An object can be made of any class. -/
theorem addObject (c : ClassRef) : Sound roots (w.addObject { cls := c }) := by
  have hg := w.grows_addObject { cls := c }
  refine h.of_grows hg h.size_origins h.size_subjects h.size_homes (h.kept.of_scopes hg rfl) .inl
    .inl ?_ .inl
  intro o x key v hx hv
  unfold Watched.addObject Store.addObject Store.object? at hx
  rw [Array.getElem?_push] at hx
  split at hx
  · cases hx
    cases hv
  · exact (h.fields hx hv).mono hg

/-- A field can be set to any valid value. -/
theorem setField {o : ObjectRef} {name : Name} (hv : Valid roots w v) :
    Sound roots (w.setField o name v) := by
  have hg := w.grows_setField o name v
  refine h.of_grows hg h.size_origins h.size_subjects h.size_homes (h.kept.of_scopes hg rfl) .inl
    .inl ?_ .inl
  intro o' x key v' hx hv'
  unfold Watched.setField Store.setField Store.object? at hx
  rw [Array.getElem?_modify] at hx
  split at hx
  · next he =>
    obtain ⟨x', hx', rfl⟩ := Option.map_eq_some_iff.1 hx
    rw [Bindings.find?_insert] at hv'
    split at hv'
    · cases hv'
      exact hv.mono hg
    · exact (h.fields (o := o') hx' hv').mono hg
  · exact (h.fields hx hv').mono hg

end Sound

/-! ## Changes of a display -/

theorem Linked.head (h : Linked w display r) : display = [] ∨ ∃ outer, display = r :: outer := by
  cases display with
  | nil => exact .inl rfl
  | cons a outer =>
    have hc := h.chain
    rw [Store.chain_eq] at hc
    exact .inr ⟨outer, by rw [(List.cons.inj hc).1]⟩

theorem Linked.addScope (h : Linked w display e) (site : Site) (subject : Subject) :
    Linked (w.addScope site subject e) (w.nextScope :: display) w.nextScope where
  chain := by
    have hc := Store.chain_addScope h.lt_size
    rw [h.chain] at hc
    exact hc
  lt_size := by simp [Watched.addScope, Watched.nextScope, Store.addScope]

/-- A new scope goes on the display. It binds no name yet. -/
theorem Active.addScope (ha : Active w display scopes sites) (h : Sound roots w) (site : Site)
    (subject : Subject) (e : ScopeRef) :
    Active (w.addScope site subject e) (w.nextScope :: display) (.empty :: scopes)
      (site :: sites) where
  origins := by
    have hnew : (w.addScope site subject e).origins[w.nextScope.index]? = some (some site) := by
      simp [Watched.addScope, Watched.nextScope, ← h.size_origins]
    rw [List.map_cons, hnew, (ha.mono (w.grows_addScope site subject e)).origins]
    rfl
  length := by simp [ha.length]
  bound {d r key} hd hr := by
    obtain ⟨frame, hf, hk⟩ := hr
    cases d with
    | zero =>
      cases hf
      cases hk
    | succ d => exact (ha.mono (w.grows_addScope site subject e)).bound hd ⟨frame, hf, hk⟩

/-- Binding a name in the innermost scope makes that name ready, and no other. -/
theorem Active.define {scopes' : List Frame} (ha : Active w display scopes sites)
    (hl : Linked w display r) (v : Value) (hlen : scopes'.length = scopes.length)
    (hready : ∀ {d : Nat} {other : Name}, Ready scopes' d other →
      Ready scopes d other ∨ d = 0 ∧ (key == other) = true) :
    Active (w.define r key v) display scopes' sites where
  origins := ha.origins
  length := hlen.trans ha.length
  bound {d a other} hd hr := by
    rw [Watched.define, Store.bound?_define _ hl.lt_size]
    split
    · rfl
    · next hne =>
      rcases hready hr with hr | ⟨rfl, hk⟩
      · exact ha.bound hd hr
      · rcases hl.head with rfl | ⟨outer, rfl⟩
        · cases hd
        · cases hd
          exact absurd ⟨rfl, hk⟩ hne

/-- A name that is ready after a binding was so before, or it is the bound one. -/
theorem ready_bindName (hname : name.asName = .ok key) {ready : Bool} {other : Name}
    (h : Ready (bindName scopes name ready) d other) :
    Ready scopes d other ∨ ready = true ∧ d = 0 ∧ (key == other) = true := by
  cases scopes with
  | nil => exact .inl h
  | cons scope outer =>
    simp only [bindName, hname] at h
    obtain ⟨frame, hf, hk⟩ := h
    cases d with
    | zero =>
      cases hf
      rw [Bindings.find?_insert] at hk
      split at hk
      · next he => exact .inr ⟨Option.some.inj hk, rfl, he⟩
      · exact .inl ⟨scope, rfl, hk⟩
    | succ d => exact .inl ⟨frame, hf, hk⟩

/-- A name that is declared but not ready is not looked for. -/
theorem Active.bindName (ha : Active w display scopes sites) (hname : name.asName = .ok key) :
    Active w display (bindName scopes name false) sites where
  origins := ha.origins
  length := (Resolver.length_bindName ..).trans ha.length
  bound hd hr := by
    rcases ready_bindName hname hr with hr | ⟨h, -⟩
    · exact ha.bound hd hr
    · cases h

theorem Active.bindReady (ha : Active w display scopes sites) (hl : Linked w display r)
    (hname : name.asName = .ok key) (v : Value) :
    Active (w.define r key v) display (bindReady scopes name) sites := by
  refine ha.define hl v (Resolver.length_bindReady ..) fun hr => ?_
  rcases ready_bindName hname hr with hr | ⟨-, hd, hk⟩
  · rcases ready_bindName hname hr with hr | ⟨h, -⟩
    · exact .inl hr
    · cases h
  · exact .inr ⟨hd, hk⟩

/-- A new scope with one name. -/
theorem Active.single (ha : Active w (r :: display) (.empty :: scopes) sites)
    (hl : Linked w (r :: display) r) (key : Name) (v : Value) :
    Active (w.define r key v) (r :: display) (.single key true :: scopes) sites := by
  refine ha.define hl v rfl fun {d other} hr => ?_
  obtain ⟨frame, hf, hk⟩ := hr
  cases d with
  | zero =>
    cases hf
    rw [Bindings.find?_single] at hk
    split at hk
    · next he => exact .inr ⟨rfl, he⟩
    · cases hk
  | succ d => exact .inl ⟨frame, hf, hk⟩

/-! ## Functions and methods -/

theorem Watched.function?_addFunction (w : Watched) (home : Home) (f : Function) :
    (w.addFunction home f).machine.store.function? w.nextFunction = some f := by
  simp [Watched.addFunction, Watched.nextFunction, Store.addFunction, Store.function?]

theorem Sound.homes_addFunction (h : Sound roots w) (home : Home) (f : Function) :
    (w.addFunction home f).homes[w.nextFunction.index]? = some home := by
  simp [Watched.addFunction, Watched.nextFunction, ← h.size_homes]

/-! ## Open scopes -/

theorem Sound.open_globals (h : Sound roots w) : Open w w.machine.globals := by
  rw [h.first]
  exact ⟨none, h.outermost, nofun⟩

/-- A scope of the display is open if its site says so. -/
theorem Active.open_of_getElem? (h : Active w display scopes sites) {site : Site}
    (hr : display[d]? = some r) (hs : sites[d]? = some site) (ho : site.opening.isHidden = false) :
    Open w r := by
  have horigin := congrArg (·[d]?) h.origins
  simp only [List.getElem?_map, hr, hs, Option.map_some, Function.comp] at horigin
  refine ⟨some site, Option.some.inj horigin, ?_⟩
  rintro _ ⟨⟩
  exact ho

end LoxLang
