import LoxLang.Proofs.Heap

/-!
# Safe steps

`Safe` says of a computation of the observed machine that it keeps the machine sound and the current
scope as it was, however it ends, and that it stops early only with an error of the language, with
an overflow or out of rounds. This module has one lemma for each step that the machine can make on
its own: reading and assigning names, operators, methods and calls, and declarations. The only steps
that change the current scope are those that make the methods of a class with a superclass, and
nothing can stop between them (`Makes`).
-/

namespace LoxLang

open Resolver (Frame depthOf? bindName bindReady afterStatement thisFrame superFrame aroundMethods
  Ready Fine Settled)

variable {m : Machine} {r : FunctionRef} {v : Value} {key : Name} {display : List ScopeRef}
  {name parent slot : Tree} {d : Nat} {kind : Token.Kind} {o : ObjectRef} {sites : List Site}
  {scopes : List Frame} {p : Position}

/-! ## Safe steps -/

variable {α : Type} {w : Watched} {e : Stop}

theorem Watch.plain_ok {step : Exec α} {a : α} (h : step w.machine = .ok a m) :
    Watch.plain step w = .ok a { w with machine := m } := by
  unfold Watch.plain
  rw [h]

theorem Watch.plain_error {step : Exec α} (h : step w.machine = .error e m) :
    Watch.plain step w = .error e { w with machine := m } := by
  unfold Watch.plain
  rw [h]

variable {home : Home}

theorem Watch.homeOf_ok (h : w.homes[r.index]? = some home) : Watch.homeOf r w = .ok home w := by
  show EStateM.Result.ok ((w.homes[r.index]?).getD default) w = _
  rw [h]
  rfl

theorem Watch.plain_bind {β : Type} (x : Exec α) (f : α → Exec β) :
    Watch.plain (x >>= f) = Watch.plain x >>= fun a => Watch.plain (f a) := by
  funext w
  cases hx : x w.machine with
  | ok a m =>
    rw [bind_of_ok (plain_ok hx)]
    unfold Watch.plain
    rw [bind_of_ok hx]
  | error e m =>
    rw [bind_of_error (plain_error hx), plain_error (bind_of_error hx)]

/-- A machine that has gone on, with the same scope as its current one. -/
structure Later (roots : List Tree) (w w' : Watched) : Prop where
  sound : Sound roots w'
  grows : w.Grows w'
  current : w'.machine.current = w.machine.current

/-- A stop that leaves the machine in order: no tree was malformed, no scope or name was missing,
and no operator was unknown. -/
def Stop.Tame : Stop → Prop
  | .runtime error => error.cause ≠ .unknownUnary ∧ error.cause ≠ .unknownBinary
  | .fault _ => False
  | _ => True

/-- The computation keeps the machine sound, however it ends. It stops early only with a tame
stop. -/
def Safe {α : Type} (roots : List Tree) (x : Watch α) (w : Watched) (Q : α → Watched → Prop) :
    Prop :=
  Ends x w (fun a w' => Later roots w w' ∧ Q a w') fun e w' => Later roots w w' ∧ e.Tame

variable {roots : List Tree} {w w' w'' : Watched} {α β : Type} {x : Watch α} {f : α → Watch β}
  {P Q : α → Watched → Prop} {R : β → Watched → Prop}

theorem Later.refl (h : Sound roots w) : Later roots w w :=
  ⟨h, .refl _, rfl⟩

theorem Later.trans (h : Later roots w w') (h' : Later roots w' w'') : Later roots w w'' :=
  ⟨h'.sound, h.grows.trans h'.grows, h'.current.trans h.current⟩

namespace Safe

variable {a : α}

theorem pure (h : Sound roots w) (ha : Q a w) : Safe roots (Pure.pure a) w Q :=
  Ends.pure ⟨.refl h, ha⟩

theorem throw (h : Sound roots w) (he : e.Tame) : Safe roots (MonadExcept.throw e : Watch α) w Q :=
  Ends.throw ⟨.refl h, he⟩

theorem imp (h : Safe roots x w P) (hQ : ∀ a w', Later roots w w' → P a w' → Q a w') :
    Safe roots x w Q :=
  Ends.imp h (fun a w' ⟨hl, ha⟩ => ⟨hl, hQ a w' hl ha⟩) fun _ _ he => he

theorem bind (hx : Safe roots x w P)
    (hf : ∀ a w', Later roots w w' → P a w' → Safe roots (f a) w' R) :
    Safe roots (x >>= f) w R := by
  refine Ends.bind (Ends.imp hx (fun _ _ h => h) fun _ _ h => h) fun a w' ⟨hl, ha⟩ => ?_
  exact Ends.imp (hf a w' hl ha) (fun b w'' ⟨hl', hb⟩ => ⟨hl.trans hl', hb⟩)
    fun e w'' ⟨hl', he⟩ => ⟨hl.trans hl', he⟩

/-- A step of the machine with a known result. -/
theorem plain {step : Exec α} {a : α} {m : Machine} (hx : step w.machine = .ok a m)
    (hl : Later roots w { w with machine := m }) (ha : Q a { w with machine := m }) :
    Safe roots (Watch.plain step) w Q :=
  Ends.of_ok (Watch.plain_ok hx) ⟨hl, ha⟩

/-- A step of the machine that stops it. -/
theorem stop {step : Exec α} {e : Stop} (hx : step w.machine = .error e w.machine)
    (h : Sound roots w) (he : e.Tame) : Safe roots (Watch.plain step) w Q :=
  Ends.of_error (Watch.plain_error hx) ⟨.refl h, he⟩

/-- A step that gives a result and changes nothing. -/
theorem read {step : Exec α} (hx : step w.machine = .ok a w.machine) (hf : Safe roots (f a) w R) :
    Safe roots (Watch.plain step >>= f) w R :=
  Ends.step (Watch.plain_ok hx) hf

/-- A look at where a function comes from. -/
theorem homeOf {f : Home → Watch β} (hh : w.homes[r.index]? = some home)
    (hf : Safe roots (f home) w R) : Safe roots (Watch.homeOf r >>= f) w R :=
  Ends.step (Watch.homeOf_ok hh) hf

/-- A look at the record. -/
theorem look {f : Watched → Watch β} (hf : Safe roots (f w) w R) : Safe roots (get >>= f) w R :=
  hf

/-- A slot that holds what it ought to hold. -/
theorem lift {r : Except Fault α} (hr : r = .ok a) (hf : Safe roots (f a) w R) :
    Safe roots (Watch.plain (Exec.lift r) >>= f) w R := by
  subst hr
  exact .read rfl hf

end Safe

theorem safe_raise (h : Sound roots w) (t : Token) {cause : RuntimeCause}
    (hu : cause ≠ .unknownUnary) (hb : cause ≠ .unknownBinary) :
    Safe roots (Watch.plain (Exec.raise (.token t) cause)) w Q :=
  Ends.of_error rfl ⟨.refl h, hu, hb⟩

/-- A step that only prints or traces. -/
structure Quiet (m m' : Machine) : Prop where
  store : m'.store = m.store
  globals : m'.globals = m.globals
  current : m'.current = m.current
  blocked : m'.trace.blocked = m.trace.blocked
  detail : m'.detail = m.detail

/-- Printing and tracing keep a machine sound. -/
theorem Quiet.later (h : Quiet w.machine m) (hs : Sound roots w) :
    Later roots w { w with machine := m } := by
  have hg : w.Grows { w with machine := m } :=
    ⟨h.store ▸ .refl _, h.globals, h.blocked, h.detail, id, id, id⟩
  have hfields : ∀ {o : ObjectRef} {x : Object} {key : Name} {v : Value},
      m.store.object? o = some x → x.fields.find? key = some v →
        Valid roots { w with machine := m } v :=
    hs.fields_of_grows hg (congrArg Store.objects h.store)
  refine ⟨hs.of_grows hg ?_ hs.size_subjects ?_ ?_ ?_ ?_ hfields .inl, hg, h.current⟩
  · exact hs.size_origins.trans (congrArg (·.scopes.size) h.store.symm)
  · exact hs.size_homes.trans (congrArg (·.functions.size) h.store.symm)
  · exact hs.kept.of_scopes hg (congrArg Store.scopes h.store)
  · intro r key v hb
    exact .inl (h.store ▸ hb)
  · intro c k hc
    exact .inl (h.store ▸ hc)

/-- A line that can be made can be traced. -/
theorem note_ok {line : Machine → Except Fault String} {text : String} (hl : line m = .ok text)
    (level : Nat) : ∃ m', Exec.note level line m = .ok () m' ∧ Quiet m m' := by
  have hget : (get : Exec Machine) m = .ok m m := rfl
  by_cases hd : level ≤ m.detail
  · refine ⟨m.note level text, ?_, ?_⟩
    · rw [Exec.note, bind_of_ok hget, if_pos hd, hl]
      rfl
    · unfold Machine.note
      rw [if_pos hd]
      exact ⟨rfl, rfl, rfl, rfl, rfl⟩
  · refine ⟨m, ?_, rfl, rfl, rfl, rfl, rfl⟩
    rw [Exec.note, bind_of_ok hget, if_neg hd]
    rfl

theorem safe_note (h : Sound roots w) {level : Nat} {line : Machine → Except Fault String}
    (hl : ∃ text, line w.machine = .ok text) :
    Safe roots (Watch.plain (Exec.note level line)) w fun _ _ => True := by
  obtain ⟨text, hl⟩ := hl
  obtain ⟨m, hm, hq⟩ := note_ok hl level
  exact .plain hm (hq.later h) trivial

/-- Every value of a sound machine has a text. -/
theorem Sound.text (h : Sound roots w) (hv : Valid roots w v) :
    ∃ text, w.machine.store.text v = .ok text := by
  cases v with
  | cls c =>
    obtain ⟨k, hk⟩ := hv
    obtain ⟨s, hs⟩ := h.names hk
    refine ⟨s, ?_⟩
    simp only [Store.text, Store.classText, hk, Option.map_some, hs, Name.ofText]
  | _ => exact ⟨_, rfl⟩

theorem Sound.texts (h : Sound roots w) {vs : List Value} (hvs : ∀ v ∈ vs, Valid roots w v) :
    ∃ texts, w.machine.store.texts vs = .ok texts := by
  induction vs with
  | nil => exact ⟨[], rfl⟩
  | cons v vs ih =>
    obtain ⟨hv, hrest⟩ := List.forall_mem_cons.1 hvs
    obtain ⟨text, ht⟩ := h.text hv
    obtain ⟨texts, hts⟩ := ih hrest
    exact ⟨text :: texts, by rw [Store.texts, ht, hts]; rfl⟩

/-! ## Names -/

theorem Tree.exists_of_asName {t : Tree} (h : t.asName = .ok key) :
    ∃ token, t = .token token ∧ token.name = .ok key := by
  unfold Tree.asName Tree.asToken at h
  cases t with
  | token token => exact ⟨token, rfl, h⟩
  | _ => cases h

/-- A name is looked up in the scope of the display that its depth leads to. -/
theorem lookUp_some {r : ScopeRef} (hslot : slot.asName = .ok key)
    (hc : m.store.chain m.current = display ++ [m.globals]) (hd : display[d]? = some r)
    (hv : m.store.bound? r key = some v) : Exec.lookUp slot (some d) m = .ok v m := by
  obtain ⟨token, rfl, ht⟩ := Tree.exists_of_asName hslot
  have hr : (m.store.chain m.current)[d]? = some r := by
    rw [hc, List.getElem?_append_left (List.getElem?_eq_some_iff.1 hd).1]
    exact hd
  show (Exec.lift token.name >>= _) m = _
  rw [ht]
  show Exec.lift (m.store.lookupAt d m.current key) m = _
  rw [Store.lookupAt_of_chain hr hv]
  rfl

/-- A name without a depth is looked up in the globals. -/
theorem lookUp_none {token : Token} (hslot : slot = .token token) (ht : token.name = .ok key)
    (hg : m.store.chain m.globals = [m.globals]) :
    Exec.lookUp slot none m =
      match m.store.bound? m.globals key with
      | some v => .ok v m
      | none => .error (.runtime (Store.undefined key token.line)) m := by
  subst hslot
  show (Exec.lift token.name >>= _) m = _
  rw [ht]
  show Exec.orStop (m.store.lookup m.globals key token.line) m = _
  unfold Store.lookup Store.lookup?
  rw [hg, List.findSome?_singleton]
  cases m.store.bound? m.globals key <;> rfl

/-- A name is found where the resolver says. -/
theorem safe_lookUp (h : Sound roots w) (hl : Linked w display w.machine.current)
    {depth : Option Nat} (hslot : slot.asName = .ok key) (hfound : ∀ d, depth = some d →
      ∃ r, display[d]? = some r ∧ (w.machine.store.bound? r key).isSome) :
    Safe roots (Watch.plain (Exec.lookUp slot depth)) w fun v w' => Valid roots w' v := by
  cases depth with
  | some d =>
    obtain ⟨r, hr, hb⟩ := hfound d rfl
    obtain ⟨v, hv⟩ := Option.isSome_iff_exists.1 hb
    exact .plain (lookUp_some hslot hl.chain hr hv) (.refl h) (h.values hv)
  | none =>
    obtain ⟨token, ht, hkey⟩ := Tree.exists_of_asName hslot
    have hx := lookUp_none ht hkey h.globals.chain
    cases hb : w.machine.store.bound? w.machine.globals key with
    | some v =>
      rw [hb] at hx
      exact .plain hx (.refl h) (h.values hb)
    | none =>
      rw [hb] at hx
      exact .stop hx h ⟨nofun, nofun⟩

/-- An assignment with a depth changes the scope of the display that the depth leads to. -/
theorem assign_some {r : ScopeRef} (hslot : slot.asName = .ok key)
    (hc : m.store.chain m.current = display ++ [m.globals]) (hd : display[d]? = some r) (v : Value) :
    Exec.assign slot (some d) v m = .ok () { m with store := m.store.define r key v } := by
  obtain ⟨token, rfl, ht⟩ := Tree.exists_of_asName hslot
  have hr : (m.store.chain m.current)[d]? = some r := by
    rw [hc, List.getElem?_append_left (List.getElem?_eq_some_iff.1 hd).1]
    exact hd
  show (Exec.lift token.name >>= _) m = _
  rw [ht]
  show (Exec.lift (m.store.scopeAt d m.current) >>= fun r => Exec.defineIn r key v) m = _
  rw [Store.scopeAt_of_chain hr]
  rfl

/-- An assignment without a depth changes the globals, if they bind the name. -/
theorem assign_none {token : Token} (hslot : slot = .token token) (ht : token.name = .ok key)
    (hg : m.store.chain m.globals = [m.globals]) (v : Value) :
    Exec.assign slot none v m =
      if (m.store.bound? m.globals key).isSome then
        .ok () { m with store := m.store.define m.globals key v }
      else .error (.runtime (Store.undefined key token.line)) m := by
  subst hslot
  show (Exec.lift token.name >>= _) m = _
  rw [ht]
  show (Exec.orStop (m.store.holder m.globals key token.line) >>= fun r =>
    Exec.defineIn r key v) m = _
  unfold Store.holder Store.holder?
  rw [hg, List.find?_singleton]
  cases (m.store.bound? m.globals key).isSome <;> rfl

/-- A name is assigned where the resolver says. -/
theorem safe_assign (h : Sound roots w) (hl : Linked w display w.machine.current)
    (hname : slot.IsName) {depth : Option Nat}
    (hfound : ∀ d, depth = some d → ∃ r, display[d]? = some r ∧ Open w r) (hv : Valid roots w v) :
    Safe roots (Watch.plain (Exec.assign slot depth v)) w fun _ _ => True := by
  obtain ⟨s, hs, hw⟩ := hname.exists_key
  have hdefine {r : ScopeRef} (hr : r.index < w.machine.store.scopes.size) (ho : Open w r) :
      Later roots w (w.define r (.ofText s) v) := by
    have hg := Watched.grows_define hr (.ofText s) v
    exact ⟨h.define hr ho (hv.mono hg) (reserved_ofText hw v), hg, rfl⟩
  cases depth with
  | some d =>
    obtain ⟨r, hr, ho⟩ := hfound d rfl
    exact .plain (assign_some hs hl.chain hr v) (hdefine (hl.lt_of_getElem? hr) ho) trivial
  | none =>
    obtain ⟨token, ht, hkey⟩ := Tree.exists_of_asName hs
    have hx := assign_none ht hkey h.globals.chain v
    split at hx
    · exact .plain hx (hdefine h.globals.lt_size h.open_globals) trivial
    · exact .stop hx h ⟨nofun, nofun⟩

/-- Declaring a name changes the current scope. -/
theorem safe_define (h : Sound roots w) (hl : Linked w display w.machine.current)
    (ho : Open w w.machine.current) {s : String} (hs : Token.Kind.ofWord s = .identifier)
    (hv : Valid roots (w.define w.machine.current (.ofText s) v) v) :
    Safe roots (Watch.plain (Exec.define (.ofText s) v)) w fun _ w' =>
      w' = w.define w.machine.current (.ofText s) v :=
  .plain rfl ⟨h.define hl.lt_size ho hv (reserved_ofText hs v),
    Watched.grows_define hl.lt_size _ v, rfl⟩ rfl

/-! ## Operators -/

/-- An operator gives a scalar or an error that names its operands. -/
def Operates : Except RuntimeCause Value → Prop
  | .ok v => ∃ s, v = .scalar s
  | .error cause => cause ≠ .unknownUnary ∧ cause ≠ .unknownBinary

theorem operates_unary (h : kind = .bang ∨ kind = .minus) (v : Value) :
    Operates (Value.unary kind v) := by
  rcases h with rfl | rfl
  · exact ⟨_, rfl⟩
  · unfold Value.unary
    split
    · exact ⟨_, rfl⟩
    · exact ⟨nofun, nofun⟩
    · contradiction
    · contradiction

/-- The operators on numbers alone. -/
theorem operates_numbers (ha : ∀ x y, ∃ s, Value.arithmetic kind x y = .ok s) (left right : Value) :
    Operates (match left, right with
      | .scalar (.num x), .scalar (.num y) => (Value.arithmetic kind x y).map .scalar
      | _, _ => .error .operandsNotNumbers) := by
  split
  · next x y =>
    obtain ⟨s, hs⟩ := ha x y
    rw [hs]
    exact ⟨s, rfl⟩
  · exact ⟨by rintro ⟨⟩, by rintro ⟨⟩⟩

/-- An operator of the grammar gives a value or an error of its operands. -/
theorem operates_binary {level : Grammar.Level} (h : kind ∈ level.kinds) (hl : level.tree = .binary)
    (left right : Value) : Operates (Value.binary kind left right) := by
  cases level with
  | or | and =>
    have := congrFun (congrFun (congrFun hl .null) .null) .null
    cases this
  | equality =>
    simp only [Grammar.Level.kinds, List.mem_cons, List.not_mem_nil, or_false] at h
    rcases h with rfl | rfl <;> exact ⟨_, rfl⟩
  | comparison =>
    simp only [Grammar.Level.kinds, List.mem_cons, List.not_mem_nil, or_false] at h
    rcases h with rfl | rfl | rfl | rfl <;> exact operates_numbers (fun _ _ => ⟨_, rfl⟩) left right
  | term =>
    simp only [Grammar.Level.kinds, List.mem_cons, List.not_mem_nil, or_false] at h
    rcases h with rfl | rfl
    · show Operates (Value.add left right)
      unfold Value.add
      split
      · exact ⟨_, rfl⟩
      · exact ⟨_, rfl⟩
      · exact ⟨by rintro ⟨⟩, by rintro ⟨⟩⟩
    · exact operates_numbers (fun _ _ => ⟨_, rfl⟩) left right
  | factor =>
    simp only [Grammar.Level.kinds, List.mem_cons, List.not_mem_nil, or_false] at h
    rcases h with rfl | rfl <;> exact operates_numbers (fun _ _ => ⟨_, rfl⟩) left right

theorem safe_orRaise (h : Sound roots w) (t : Token) {r : Except RuntimeCause Value}
    (hr : Operates r) :
    Safe roots (Watch.plain (Exec.orRaise (.token t) r)) w fun v w' => Valid roots w' v := by
  cases r with
  | ok v =>
    obtain ⟨s, rfl⟩ := hr
    exact .plain rfl (.refl h) trivial
  | error cause => exact safe_raise h t hr.1 hr.2

/-! ## Methods -/

theorem Sound.isMethod (h : Sound roots w) {c : ClassRef} {name : Name}
    (hr : w.machine.store.findMethod? c name = some r) : IsMethod roots w r := by
  fun_induction Store.findMethod? w.machine.store c name with
  | case1 => cases hr
  | case2 c k hk method hm =>
    cases hr
    exact h.methods hk hm
  | case3 _ _ _ _ _ _ _ ih => exact ih hr
  | case4 | case5 => cases hr

/-- A method that is bound to an object can be called. -/
theorem safe_bindMethod (h : Sound roots w) (hr : IsMethod roots w r)
    (ht : Valid roots w (.object o)) :
    Safe roots (Watch.bindMethod r (.object o)) w fun bound w' => Callable roots w' bound := by
  obtain ⟨f, home, outer, sites, hf, hh, hd, hl, ha⟩ := hr
  let site : Site := ⟨.receiver, home.position.classOfMethod⟩
  let subject : Subject := .receiver (.object o)
  let w₁ := w.addScope site subject f.closure
  let w₂ := w₁.define w.nextScope (.ofText "this") (.object o)
  let w₃ := w₂.addFunction ⟨home.position, w.nextScope :: home.display⟩
    { f with closure := w.nextScope }
  have hrun : Watch.bindMethod r (.object o) w = .ok w₂.nextFunction w₃ := by
    have hbind : Exec.bindMethod r (.object o) w.machine = .ok w₂.nextFunction w₃.machine := by
      show EStateM.Result.ok _ _ = _
      rw [hf]
      rfl
    rw [Watch.bindMethod, bind_of_ok (Watch.homeOf_ok hh),
      bind_of_ok (show (get : Watch Watched) w = .ok w w from rfl),
      bind_of_ok (Watch.plain_ok hbind)]
    rfl
  have hg₁ : w.Grows w₁ := w.grows_addScope site subject f.closure
  have hl₁ : Linked w₁ (w.nextScope :: home.display) w.nextScope := hl.addScope site subject
  have hg₂ : w₁.Grows w₂ := Watched.grows_define hl₁.lt_size _ _
  have hs₂ : Sound roots w₂ :=
    h.addSingle (ht.mono (hg₁.trans hg₂)) ⟨fun hk => absurd hk (by decide), fun _ => ⟨o, rfl⟩⟩
      ⟨Store.entries_single _ _ _ _, o, rfl⟩
  have ha₂ : Active w₂ (w.nextScope :: home.display) (thisFrame :: outer) (site :: sites) :=
    (ha.addScope h site subject f.closure).single hl₁ _ _
  have hg₃ : w₂.Grows w₃ := w₂.grows_addFunction _ _
  refine Ends.of_ok hrun ⟨⟨hs₂.addFunction _ _, hg₁.trans (hg₂.trans hg₃), rfl⟩, ?_⟩
  refine ⟨_, _, thisFrame :: outer, site :: sites, w₂.function?_addFunction _ _,
    hs₂.homes_addFunction _ _, ?_, (hl₁.mono hg₂).mono hg₃, ha₂.mono hg₃, fun _ => ?_⟩
  · cases hd with
    | intro declaration names located sitesOf_body =>
      exact .intro declaration names located sitesOf_body
  · exact (ha₂.mono hg₃).bound (d := 0) rfl ⟨thisFrame, rfl, by decide⟩

theorem safe_methodOf (h : Sound roots w) (c : ClassRef) (name : Name) (line : Json)
    (ht : Valid roots w (.object o)) :
    Safe roots (Watch.methodOf c name line (.object o)) w fun v w' => Valid roots w' v := by
  refine .read rfl ?_
  cases hr : w.machine.store.findMethod? c name with
  | none => exact .throw h ⟨nofun, nofun⟩
  | some method =>
    refine (safe_bindMethod h (h.isMethod hr) ht).bind fun bound w' hl hb => ?_
    exact .pure hl.sound hb

/-- A property is a field or a bound method. -/
theorem safe_property (h : Sound roots w) (ho : Valid roots w (.object o)) (hslot : slot.IsName) :
    Safe roots (Watch.property o slot) w fun v w' => Valid roots w' v := by
  obtain ⟨s, hs, -⟩ := hslot.exists_key
  obtain ⟨token, rfl, ht⟩ := Tree.exists_of_asName hs
  obtain ⟨x, hx⟩ : ∃ x, w.machine.store.object? o = some x := ⟨_, Array.getElem?_eq_getElem ho⟩
  have hat : Exec.objectAt o w.machine = .ok x w.machine := by
    rw [Exec.objectAt, bind_of_ok (show (get : Exec Machine) w.machine = .ok _ _ from rfl), hx]
    rfl
  refine .lift rfl (.lift ht (.read hat ?_))
  cases hf : x.fields.find? (.ofText s) with
  | some v => exact .pure h (h.fields hx hf)
  | none => exact safe_methodOf h _ _ _ ho

/-- The superclass and the object of a method are in the scopes around it. -/
theorem safe_superMethod (h : Sound roots w) (hl : Linked w display w.machine.current)
    {method : Tree} (hmethod : method.IsName) {r r' : ScopeRef} {c : ClassRef}
    (hr : display[d + 1]? = some r)
    (hc : w.machine.store.bound? r (.ofText "super") = some (.cls c)) (hr' : display[d]? = some r')
    (ht : (w.machine.store.bound? r' (.ofText "this")).isSome) :
    Safe roots (Watch.superMethod method (some (d + 1))) w fun v w' => Valid roots w' v := by
  obtain ⟨s, hs, -⟩ := hmethod.exists_key
  obtain ⟨token, rfl, htoken⟩ := Tree.exists_of_asName hs
  obtain ⟨this, hthis⟩ := Option.isSome_iff_exists.1 ht
  refine .read rfl (.lift (Store.lookupAt_of_chain (hl.getElem? hr) hc) ?_)
  refine .lift (Store.lookupAt_of_chain (hl.getElem? hr') hthis) ?_
  obtain ⟨o, rfl⟩ := h.receivers hthis
  exact .lift rfl (.lift htoken (safe_methodOf h _ _ _ (h.values hthis)))

/-! ## Calls -/

theorem functionAt_ok {f : Function} (h : m.store.function? r = some f) :
    Exec.functionAt r m = .ok f m := by
  rw [Exec.functionAt, bind_of_ok (show (get : Exec Machine) m = .ok m m from rfl), h]
  rfl

theorem routineOf_ok {f : Function} {body : Tree} {params : List Tree}
    (h : f.declaration = .funDecl name (.list params) body) (m : Machine) :
    Exec.routineOf f m = .ok (params, body) m := by
  unfold Exec.routineOf
  rw [h]
  rfl

theorem safe_checkArity (h : Sound roots w) (t : Token) (expected got : Nat) :
    Safe roots (Watch.plain (Exec.checkArity (.token t) expected got)) w
      fun _ w' => w = w' ∧ expected = got := by
  unfold Exec.checkArity
  split
  · next he => exact .plain rfl (.refl h) ⟨rfl, he⟩
  · exact safe_raise h t nofun nofun

/-- Binding the parameters of a function makes them ready. -/
theorem safe_bindParameters {r : ScopeRef} :
    ∀ {params : List Tree} {values : List Value} {scopes : List Frame} {w : Watched},
      Sound roots w → (∀ param ∈ params, param.IsName) → params.length = values.length →
      (∀ v ∈ values, Valid roots w v) → Linked w display r → Open w r →
      Active w display scopes sites →
      Safe roots (Watch.plain (Exec.bindParameters r params values)) w fun _ w' =>
        Active w' display (params.foldl bindReady scopes) sites := by
  intro params
  induction params with
  | nil =>
    intro values scopes w h _ _ _ _ _ ha
    exact .plain rfl (.refl h) ha
  | cons param params ih =>
    intro values scopes w h hparams hlen hvalues hl ho ha
    obtain ⟨hparam, hrest⟩ := List.forall_mem_cons.1 hparams
    cases values with
    | nil => cases hlen
    | cons v values =>
      obtain ⟨hv, hvs⟩ := List.forall_mem_cons.1 hvalues
      obtain ⟨s, hs, hw⟩ := hparam.exists_key
      have hg := Watched.grows_define hl.lt_size (.ofText s) v
      have hlater : Later roots w (w.define r (.ofText s) v) :=
        ⟨h.define hl.lt_size ho (hv.mono hg) (reserved_ofText hw v), hg, rfl⟩
      unfold Exec.bindParameters
      rw [Watch.plain_bind]
      refine .lift hs ?_
      rw [Watch.plain_bind]
      refine Safe.bind (P := fun _ w' => w' = w.define r (.ofText s) v) (.plain rfl hlater rfl) ?_
      rintro _ _ - rfl
      exact ih hlater.sound hrest (Nat.succ.inj hlen) (fun u hu => (hvs u hu).mono hg)
        (hl.mono hg) (ho.mono hg) (ha.bindReady hl hs v)

theorem safe_addScope (h : Sound roots w) {site : Site} {subject : Subject} {e : ScopeRef}
    (hnew : Holds (w.addScope site subject e).machine w.homes w.nextScope (some site)
      (some subject)) :
    Safe roots (Watch.addScope site subject e) w fun r w' =>
      r = w.nextScope ∧ w' = w.addScope site subject e :=
  Ends.of_ok rfl ⟨⟨h.addScope hnew, w.grows_addScope site subject e, rfl⟩, rfl, rfl⟩

/-- The body of a block or of a function is executed safely where its scopes are active. -/
def BlockSafe (roots : List Tree)
    (executeBlock : Position → List ScopeRef → Tree → ScopeRef → Watch Completion) : Prop :=
  ∀ {w : Watched} {p : Position} {display : List ScopeRef} {body : Tree} {scopes : List Frame}
    {r : ScopeRef}, Sound roots w → Located roots p body ⟨.body, scopes⟩ → Linked w display r →
    Active w display scopes (sitesOf roots p) →
    Safe roots (executeBlock p display body r) w fun completion w' =>
      Valid roots w' completion.value

/-- The call of a function is safe if its body is. -/
theorem safe_callFunction
    {executeBlock : Position → List ScopeRef → Tree → ScopeRef → Watch Completion}
    (hblock : BlockSafe roots executeBlock) (h : Sound roots w) (hr : Callable roots w r)
    {arguments : List Value} (harguments : ∀ v ∈ arguments, Valid roots w v) (paren : Token) :
    Safe roots (Watch.callFunction executeBlock r arguments (.token paren)) w fun v w' =>
      Valid roots w' v := by
  obtain ⟨f, home, outer, sites, hf, hh, hd, hl, ha, hi⟩ := hr
  obtain ⟨declaration, names, located, sitesOf_body⟩ := hd
  refine .read (functionAt_ok hf) (.homeOf hh (.read (routineOf_ok declaration _) ?_))
  refine (safe_checkArity h paren _ _).bind ?_
  rintro _ _ - ⟨rfl, hlen⟩
  have hline : ∃ text, Exec.callText w.machine f.name arguments (.token paren) = .ok text := by
    obtain ⟨texts, ht⟩ := h.texts harguments
    exact ⟨_, by rw [Exec.callText, ht]; rfl⟩
  refine (safe_note h hline).bind fun _ w₁ hl₁ _ => ?_
  let site : Site := ⟨.function, home.position⟩
  have hnew : Holds (w₁.addScope site (.call r) f.closure).machine w₁.homes w₁.nextScope
      (some site) (some (.call r)) :=
    ⟨f, home, hl₁.grows.store.function hf, hl₁.grows.homes hh, rfl,
      congrArg Scope.enclosing (Store.scope_addScope_self _ _)⟩
  refine (safe_addScope hl₁.sound hnew).bind ?_
  rintro _ w₂ hl₂ ⟨rfl, rfl⟩
  have hlinked := (hl.mono hl₁.grows).addScope (w := w₁) site (.call r)
  have hactive := (ha.mono hl₁.grows).addScope hl₁.sound site (.call r) f.closure
  have hopen : Open (w₁.addScope site (.call r) f.closure) w₁.nextScope :=
    hactive.open_of_getElem? (d := 0) rfl rfl rfl
  have hvalues : ∀ v ∈ arguments, Valid roots (w₁.addScope site (.call r) f.closure) v :=
    fun v hv => ((harguments v hv).mono hl₁.grows).mono hl₂.grows
  refine (safe_bindParameters hl₂.sound names hlen hvalues hlinked hopen hactive).bind
    fun _ w₃ hl₃ ha₃ => ?_
  refine (hblock hl₃.sound located (hlinked.mono hl₃.grows) (sitesOf_body ▸ ha₃)).bind
    fun completion w₄ hl₄ hc => ?_
  split
  · next hinit =>
    have hlater := hl₁.trans (hl₂.trans (hl₃.trans hl₄))
    obtain ⟨this, hthis⟩ := Option.isSome_iff_exists.1 (hlater.grows.store.bound (hi hinit))
    have hfirst : (w₄.machine.store.chain f.closure)[0]? = some f.closure := by
      rw [Store.chain_eq]
      rfl
    refine .read rfl (.plain (m := w₄.machine) ?_ (.refl hl₄.sound) (hl₄.sound.values hthis))
    rw [Store.lookupAt_of_chain hfirst hthis]
    rfl
  · exact .pure hl₄.sound hc

/-- The call of a class is safe if its initializer is. -/
theorem safe_callClass {call : Value → Watch Value} (h : Sound roots w) (c : ClassRef)
    {arguments : List Value}
    (hcall : ∀ {w' : Watched} {v : Value}, Later roots w w' → Valid roots w' v →
      Safe roots (call v) w' fun v w'' => Valid roots w'' v) (paren : Token) :
    Safe roots (Watch.callClass call c arguments (.token paren)) w fun v w' =>
      Valid roots w' v := by
  have harity : ∃ n, Exec.classArity (w.machine.store.findMethod? c (.ofText "init")) w.machine =
      .ok n w.machine := by
    cases hr : w.machine.store.findMethod? c (.ofText "init") with
    | none => exact ⟨0, rfl⟩
    | some r =>
      obtain ⟨f, home, outer, sites, hf, -, @⟨_, _, params, declaration, -, -, -⟩, -, -⟩ :=
        h.isMethod hr
      refine ⟨params.length, ?_⟩
      dsimp only [Exec.classArity]
      rw [bind_of_ok (functionAt_ok hf), bind_of_ok (routineOf_ok declaration _)]
      rfl
  obtain ⟨arity, harity⟩ := harity
  refine .read rfl (.read harity ((safe_checkArity h paren _ _).bind ?_))
  rintro _ _ - ⟨rfl, -⟩
  have hobject : Later roots w (w.addObject { cls := c }) :=
    ⟨h.addObject c, w.grows_addObject _, rfl⟩
  refine Safe.bind (P := fun o w' => o = ⟨w.machine.store.objects.size⟩ ∧
    w' = w.addObject { cls := c }) (.plain rfl hobject ⟨rfl, rfl⟩) ?_
  rintro _ _ hl ⟨rfl, rfl⟩
  have ho : Valid roots (w.addObject { cls := c }) (.object ⟨w.machine.store.objects.size⟩) := by
    simp [Valid, Watched.addObject, Store.addObject]
  cases hr : w.machine.store.findMethod? c (.ofText "init") with
  | none => exact .pure hl.sound ho
  | some r =>
    refine (safe_bindMethod hl.sound ((h.isMethod hr).mono hl.grows) ho).bind
      fun bound w₁ hl₁ hb => ?_
    refine (hcall (hl.trans hl₁) (v := .function bound) hb).bind fun _ w₂ hl₂ _ => ?_
    exact .pure hl₂.sound ((ho.mono hl₁.grows).mono hl₂.grows)

/-! ## Declarations -/

theorem Safe.plainBind {step : Exec α} {f : α → Exec β} (hx : Safe roots (Watch.plain step) w P)
    (hf : ∀ a w', Later roots w w' → P a w' → Safe roots (Watch.plain (f a)) w' R) :
    Safe roots (Watch.plain (step >>= f)) w R := by
  rw [Watch.plain_bind]
  exact hx.bind hf

/-- A variable is declared in the scope that is open. -/
theorem safe_declareVar (h : Sound roots w) (hl : Linked w display w.machine.current)
    (ha : Active w display scopes sites) (ho : Open w w.machine.current) (hname : name.IsName)
    (hv : Valid roots w v) :
    Safe roots (Watch.plain (Exec.declareVar name v)) w fun completion w' =>
      Valid roots w' completion.value ∧ Active w' display (bindReady scopes name) sites := by
  obtain ⟨s, hs, hw⟩ := hname.exists_key
  have hg := Watched.grows_define hl.lt_size (.ofText s) v
  unfold Exec.declareVar
  rw [Watch.plain_bind]
  refine .lift hs (.plainBind (safe_define h hl ho hw (hv.mono hg)) ?_)
  rintro _ _ hl₁ rfl
  have hline : ∃ text,
      Exec.varText (w.define w.machine.current (.ofText s) v).machine (.ofText s) v = .ok text := by
    obtain ⟨text, ht⟩ := hl₁.sound.text (hv.mono hg)
    exact ⟨_, by rw [Exec.varText, ht]; rfl⟩
  refine .plainBind (safe_note hl₁.sound hline) fun _ w₂ hl₂ _ => ?_
  exact .plain rfl (.refl hl₂.sound) ⟨trivial, (ha.bindReady hl hs v).mono hl₂.grows⟩

theorem safe_printValue (h : Sound roots w) (hv : Valid roots w v) :
    Safe roots (Watch.plain (Exec.printValue v)) w fun completion w' =>
      Valid roots w' completion.value := by
  obtain ⟨text, ht⟩ := h.text hv
  have hquiet : Quiet w.machine { w.machine with output := w.machine.output.push text } :=
    ⟨rfl, rfl, rfl, rfl, rfl⟩
  refine .plain ?_ (hquiet.later h) trivial (a := .normal)
  rw [Exec.printValue, bind_of_ok (show (get : Exec Machine) w.machine = .ok _ _ from rfl), ht]
  rfl

theorem safe_readClock (h : Sound roots w) :
    Safe roots (Watch.plain Exec.readClock) w fun v w' => Valid roots w' v := by
  have hquiet : Quiet w.machine { w.machine with clock := w.machine.clock.next } :=
    ⟨rfl, rfl, rfl, rfl, rfl⟩
  exact .plain rfl (hquiet.later h) trivial

/-- A function is declared, and its body stands where the resolver was. -/
theorem safe_declareFunction (h : Sound roots w) (hl : Linked w display w.machine.current)
    (ha : Active w display scopes sites) (ho : Open w w.machine.current) {declaration : Tree}
    (hname : name.IsName) (hd : ∀ f : Function, f.declaration = declaration →
      Declared roots f p (bindReady scopes name) sites) :
    Safe roots (Watch.declareFunction ⟨p, display⟩ declaration name) w fun completion w' =>
      Valid roots w' completion.value ∧ Active w' display (bindReady scopes name) sites := by
  obtain ⟨s, hs, hw⟩ := hname.exists_key
  let f : Function := ⟨.ofText s, declaration, w.machine.current, false⟩
  let w₁ := w.addFunction ⟨p, display⟩ f
  have hg₁ : w.Grows w₁ := w.grows_addFunction _ _
  have hs₁ : Sound roots w₁ := h.addFunction _ _
  have hl₁ : Linked w₁ display w.machine.current := hl.mono hg₁
  have hg₂ := Watched.grows_define hl₁.lt_size (.ofText s) (.function w.nextFunction)
  have ha₂ := (ha.mono hg₁).bindReady hl₁ hs (.function w.nextFunction)
  refine .lift hs (.read rfl ?_)
  refine Safe.bind (P := fun r w' => r = w.nextFunction ∧ w' = w₁)
    (Ends.of_ok rfl ⟨⟨hs₁, hg₁, rfl⟩, rfl, rfl⟩) ?_
  rintro _ _ - ⟨rfl, rfl⟩
  refine (safe_define hs₁ (v := .function w.nextFunction) hl₁ (ho.mono hg₁) hw ?_).bind ?_
  · exact ⟨f, ⟨p, display⟩, bindReady scopes name, sites,
      hg₂.store.function (w.function?_addFunction _ _), hg₂.homes (h.homes_addFunction _ _),
      hd f rfl, hl₁.mono hg₂, ha₂, nofun⟩
  rintro _ _ hl₂ rfl
  refine (safe_note hl₂.sound ⟨_, rfl⟩).bind fun _ w₃ hl₃ _ => ?_
  exact .pure hl₃.sound ⟨trivial, ha₂.mono hl₃.grows⟩

/-! ## Classes -/

/-- Names that are texts can be put in order. -/
theorem namesText_ok {names : List Name} (h : ∀ name ∈ names, ∃ s, name = .ofText s) :
    ∃ text, Store.namesText names = .ok text := by
  have hkeyed : (names.filterMap fun name => (name.characters?).map (·, name)).length =
      names.length := by
    rw [List.filterMap_length_eq_length]
    intro name hname
    obtain ⟨s, rfl⟩ := h name hname
    rfl
  have hsorted : ∃ sorted, Name.sorted? names = some sorted := by
    unfold Name.sorted? Name.sortedBy?
    split
    · exact ⟨_, rfl⟩
    · simp only [hkeyed, if_true]
      exact ⟨_, rfl⟩
  obtain ⟨sorted, hs⟩ := hsorted
  unfold Store.namesText
  rw [hs]
  exact ⟨_, rfl⟩

/-- The keys after an insertion. -/
theorem Bindings.mem_keys_insert {κ : Type} [BEq κ] {b : Bindings κ α} {key k : κ} {value : α}
    (h : k ∈ (b.insert key value).keys) : k = key ∨ k ∈ b.keys := by
  obtain ⟨entries⟩ := b
  simp only [insert, keys] at h ⊢
  induction entries with
  | nil => simpa [setEntry] using h
  | cons e rest ih =>
    obtain ⟨k', v⟩ := e
    unfold setEntry at h
    split at h
    · exact .inr (by simpa using h)
    · rcases List.mem_cons.1 h with rfl | h
      · exact .inr (by simp)
      · rcases ih h with rfl | h
        · exact .inl rfl
        · exact .inr (by simp [h])

/-- The computation always gives a result. It may make another scope the current one. -/
def Makes {α : Type} (roots : List Tree) (x : Watch α) (w : Watched) (Q : α → Watched → Prop) :
    Prop :=
  ∃ a w', x w = .ok a w' ∧ Sound roots w' ∧ w.Grows w' ∧ Q a w'

theorem Makes.bind (hx : Makes roots x w P)
    (hf : ∀ a w', Sound roots w' → w.Grows w' → P a w' → Makes roots (f a) w' R) :
    Makes roots (x >>= f) w R := by
  obtain ⟨a, w', hx, hs, hg, ha⟩ := hx
  obtain ⟨b, w'', hf, hs', hg', hb⟩ := hf a w' hs hg ha
  exact ⟨b, w'', by rw [bind_of_ok hx, hf], hs', hg.trans hg', hb⟩

theorem Makes.read {step : Exec α} {a : α} (hx : step w.machine = .ok a w.machine)
    (hf : Makes roots (f a) w R) : Makes roots (Watch.plain step >>= f) w R := by
  obtain ⟨b, w', hf, h⟩ := hf
  exact ⟨b, w', by rw [bind_of_ok (Watch.plain_ok hx), hf], h⟩

theorem Makes.lift {r : Except Fault α} {a : α} (hr : r = .ok a) (hf : Makes roots (f a) w R) :
    Makes roots (Watch.plain (Exec.lift r) >>= f) w R := by
  subst hr
  exact .read rfl hf

/-- The computation ends as a safe one that was begun earlier. -/
def SafeFrom {α : Type} (roots : List Tree) (base : Watched) (x : Watch α) (w : Watched)
    (Q : α → Watched → Prop) : Prop :=
  Ends x w (fun a w' => Later roots base w' ∧ Q a w') fun e w' => Later roots base w' ∧ e.Tame

variable {base : Watched}

theorem Makes.from (hx : Makes roots x w P)
    (hf : ∀ a w', Sound roots w' → w.Grows w' → P a w' → SafeFrom roots base (f a) w' R) :
    SafeFrom roots base (x >>= f) w R := by
  obtain ⟨a, w', hx, hs, hg, ha⟩ := hx
  exact Ends.step hx (hf a w' hs hg ha)

/-- Back in the scope of the beginning, what is safe is safe from there. -/
theorem Later.safeFrom (hl : Later roots base w) (h : Safe roots x w Q) :
    SafeFrom roots base x w Q :=
  Ends.imp h (fun _ _ ⟨hl', hq⟩ => ⟨hl.trans hl', hq⟩) fun _ _ ⟨hl', he⟩ => ⟨hl.trans hl', he⟩

/-- The method stands at its place among the methods of a class. -/
structure MethodAt (roots : List Tree) (p : Position) (outer : List Frame) (sites : List Site)
    (t : Tree) : Prop where
  slots : ∃ name params body, t = .funDecl name params body ∧ name.IsName
  declared : ∀ f : Function, f.declaration = t →
    Declared roots f p (thisFrame :: outer) (⟨.receiver, p.classOfMethod⟩ :: sites)

/-- What the methods of a class are bound to. -/
structure Methods (roots : List Tree) (w : Watched) (made : Bindings Name FunctionRef) : Prop where
  isMethod : ∀ {key : Name} {r : FunctionRef}, made.find? key = some r → IsMethod roots w r
  texts : ∀ name ∈ made.keys, ∃ s, name = .ofText s

theorem methods_empty : Methods roots w .empty where
  isMethod h := by cases h
  texts _ h := by cases h

/-- The methods of a class are made one by one. -/
theorem makes_methodsOf {outer : List Frame} {items : List Tree} :
    ∀ {done : Bindings Name FunctionRef} {i : Nat} {w : Watched}, Sound roots w →
      Linked w display w.machine.current → Active w display outer sites →
      (∀ j t, items[j]? = some t → MethodAt roots (p.below (i + j)) outer sites t) →
      Methods roots w done →
      Makes roots (Watch.methodsOf p display done i items) w fun made w' =>
        w'.machine.current = w.machine.current ∧ Methods roots w' made := by
  induction items with
  | nil => exact fun h _ _ _ hdone => ⟨_, _, rfl, h, .refl _, rfl, hdone⟩
  | cons t items ih =>
    intro done i w h hl ha hitems hdone
    obtain ⟨⟨name, params, body, rfl, hname⟩, hdeclared⟩ := hitems 0 t rfl
    obtain ⟨s, hs, -⟩ := hname.exists_key
    obtain ⟨token, rfl, ht⟩ := Tree.exists_of_asName hs
    let f : Function := ⟨.ofText s, .funDecl (.token token) params body, w.machine.current,
      token.lexeme == .str "init"⟩
    let w₁ := w.addFunction ⟨p.below i, display⟩ f
    have hg : w.Grows w₁ := w.grows_addFunction _ _
    have hmethod : IsMethod roots w₁ w.nextFunction :=
      ⟨f, ⟨p.below i, display⟩, outer, sites, w.function?_addFunction _ _, h.homes_addFunction _ _,
        hdeclared f rfl, hl.mono hg, ha.mono hg⟩
    have hdone' : Methods roots w₁ (done.insert (.ofText s) w.nextFunction) := by
      refine ⟨fun {key r} hr => ?_, fun name hname => ?_⟩
      · rw [Bindings.find?_insert] at hr
        split at hr
        · cases hr
          exact hmethod
        · exact (hdone.isMethod hr).mono hg
      · rcases Bindings.mem_keys_insert hname with rfl | hname
        · exact ⟨s, rfl⟩
        · exact hdone.texts name hname
    refine .lift rfl (.lift ht (.read rfl ?_))
    refine Makes.bind (P := fun r w' => r = w.nextFunction ∧ w' = w₁)
      ⟨_, _, rfl, h.addFunction _ _, hg, rfl, rfl⟩ ?_
    rintro _ _ hs₁ - ⟨rfl, rfl⟩
    refine ih hs₁ (hl.mono hg) (ha.mono hg) (fun j t hj => ?_) hdone'
    have := hitems (j + 1) t hj
    rwa [Nat.add_comm j 1, ← Nat.add_assoc] at this

/-- The same machine with another current scope. -/
def Watched.enter (w : Watched) (r : ScopeRef) : Watched :=
  { w with machine := { w.machine with current := r } }

theorem Watched.grows_enter (w : Watched) (r : ScopeRef) : w.Grows (w.enter r) :=
  ⟨.refl _, rfl, rfl, rfl, id, id, id⟩

theorem Sound.enter (h : Sound roots w) (r : ScopeRef) : Sound roots (w.enter r) :=
  h.of_grows (w.grows_enter r) h.size_origins h.size_subjects h.size_homes
    (h.kept.of_scopes (w.grows_enter r) rfl) .inl .inl
    (h.fields_of_grows (w.grows_enter r) rfl) .inl

/-- The scopes around the methods of a class, but for the one of `this`. -/
def aroundThis (scopes : List Frame) (parent : Option ClassRef) : List Frame :=
  if parent.isSome then superFrame :: scopes else scopes

/-- The sites of these scopes. -/
def sitesAroundThis (p : Position) (sites : List Site) (parent : Option ClassRef) : List Site :=
  if parent.isSome then ⟨.parent, p⟩ :: sites else sites

/-- With a superclass, the scope that binds `super` is the current one until it is left. -/
theorem makes_enterSuper (h : Sound roots w) (hl : Linked w display w.machine.current)
    (ha : Active w display scopes sites) (p : Position) {parent : Option ClassRef}
    (hparent : ∀ c ∈ parent, Valid roots w (.cls c)) :
    Makes roots (Watch.enterSuper ⟨.parent, p⟩ parent) w fun _ w' =>
      Linked w' (Watch.displayInside w.machine display parent) w'.machine.current ∧
      Active w' (Watch.displayInside w.machine display parent) (aroundThis scopes parent)
        (sitesAroundThis p sites parent) ∧
      ∀ w'', w'.Grows w'' → w''.machine.current = w'.machine.current →
        Watch.plain (Exec.leaveSuper parent) w'' = .ok () (w''.enter w.machine.current) := by
  cases parent with
  | none =>
    refine ⟨(), w, rfl, h, .refl _, hl, ha, fun w'' _ hc => ?_⟩
    rw [← hc]
    rfl
  | some c =>
    let w₁ := w.addScope ⟨.parent, p⟩ (.parent c) w.machine.current
    let w₂ := w₁.define w.nextScope (.ofText "super") (.cls c)
    have hl₁ : Linked w₁ (w.nextScope :: display) w.nextScope := hl.addScope _ _
    have hg₁ : w.Grows w₁ := w.grows_addScope _ _ _
    have hg₂ : w₁.Grows w₂ := Watched.grows_define hl₁.lt_size _ _
    have hs₂ : Sound roots w₂ :=
      h.addSingle (((hparent c rfl).mono hg₁).mono hg₂)
        ⟨fun _ => ⟨c, rfl⟩, fun hk => absurd hk (by decide)⟩ (Store.entries_single _ _ _ _)
    have hg₃ := w₂.grows_enter w.nextScope
    refine ⟨(), w₂.enter w.nextScope, rfl, hs₂.enter _, hg₁.trans (hg₂.trans hg₃), ?_, ?_, ?_⟩
    · exact (hl₁.mono hg₂).mono hg₃
    · exact ((ha.addScope h _ _ _).single hl₁ _ _).mono hg₃
    · intro w'' hg hc
      have henclosing : w''.machine.store.enclosing? w.nextScope = some w.machine.current := by
        rw [hg.store.enclosing (hl₁.mono hg₂).lt_size]
        show (w₁.machine.store.define w.nextScope _ _).enclosing? w.nextScope = _
        rw [Store.enclosing?_define, Store.enclosing?]
        exact congrArg Scope.enclosing (Store.scope_addScope_self _ _)
      have hcurrent : w''.machine.current = w.nextScope := hc
      show EStateM.Result.ok () (w''.enter
        ((w''.machine.store.enclosing? w''.machine.current).getD w''.machine.current)) = _
      rw [hcurrent, henclosing]
      rfl

/-- A superclass is evaluated to a class, or there is none. -/
theorem safe_superclass {evaluate : Tree → Watch Value} (h : Sound roots w) {methods : Tree}
    (hform : Formed .statement (.classDecl name parent methods))
    (heval : parent.isNull = false → Safe roots (evaluate parent) w fun v w' => Valid roots w' v) :
    Safe roots (Watch.superclass evaluate parent) w fun found w' =>
      found.isSome = !parent.isNull ∧ ∀ c ∈ found, Valid roots w' (.cls c) := by
  cases hform with
  | rootClass => exact .pure h ⟨rfl, nofun⟩
  | subclass _ hparent =>
    refine (heval rfl).bind fun v w' hl hv => ?_
    cases v with
    | cls c =>
      refine .pure hl.sound ⟨rfl, fun c' hc => ?_⟩
      cases hc
      exact hv
    | _ =>
      obtain ⟨token, _, rfl, -, -⟩ := hparent
      exact .lift rfl (safe_raise hl.sound token nofun nofun)

/-- A method of a class stands at its place among the methods. -/
theorem methodAt_of_located (hroots : AllFine roots) {t : Tree} {items : List Tree}
    (hloc : Located roots p (.classDecl name parent (.list items)) ⟨.statement, scopes⟩)
    {found : Option ClassRef} (hfound : found.isSome = !parent.isNull) {j : Nat}
    (hj : items[j]? = some t) :
    MethodAt roots ((p.below 2).below j) (aroundThis (bindReady scopes name) found)
      (sitesAroundThis p (sitesOf roots p) found) t := by
  have hmembers := hloc.child 2 rfl rfl
  have hmethod := hmembers.child j rfl hj
  have haround : aroundMethods (bindReady scopes name) parent =
      thisFrame :: aroundThis (bindReady scopes name) found := by
    unfold aroundMethods aroundThis
    rw [hfound]
    cases parent.isNull <;> rfl
  have hsites : sitesOf roots ((p.below 2).below j) =
      ⟨.receiver, p⟩ :: sitesAroundThis p (sitesOf roots p) found := by
    have hopens : (Tree.classDecl name parent (.list items)).opens 2 =
        if parent.isNull then [.receiver] else [.receiver, .parent] := rfl
    have hnone : (Tree.list items).opens j = [] := rfl
    rw [hmembers.sitesOf_below, hloc.sitesOf_below, hopens, hnone, sitesAroundThis, hfound]
    cases parent.isNull <;> rfl
  have hform : Formed .method t := (hmethod.everywhere hroots).here.formed
  cases hform with
  | @method mname body params hname hparams =>
  refine ⟨⟨_, _, _, rfl, hname⟩, fun f hf => ?_⟩
  have hbody := hmethod.child 2 rfl rfl
  refine .intro hf hparams (haround ▸ hbody) ?_
  · rw [hmethod.sitesOf_below, hsites]
    rfl

theorem classText_ok {made : Bindings Name FunctionRef}
    (h : ∀ name ∈ made.keys, ∃ s, name = .ofText s) {name : Name} {parent : Option ClassRef} :
    ∃ text, Exec.classText m name parent made = .ok text := by
  obtain ⟨text, ht⟩ := namesText_ok h
  unfold Exec.classText
  rw [ht]
  exact ⟨_, rfl⟩

/-- A class is declared with its methods. -/
theorem safe_declareClass (hroots : AllFine roots) {evaluate : Tree → Watch Value}
    (h : Sound roots w) {methods : Tree}
    (hloc : Located roots p (.classDecl name parent methods) ⟨.statement, scopes⟩)
    (hl : Linked w display w.machine.current) (ha : Active w display scopes (sitesOf roots p))
    (ho : Open w w.machine.current)
    (heval : parent.isNull = false → Safe roots (evaluate parent) w fun v w' => Valid roots w' v) :
    Safe roots (Watch.declareClass evaluate p display name parent methods) w fun completion w' =>
      Valid roots w' completion.value ∧
        Active w' display (bindReady scopes name) (sitesOf roots p) := by
  have hform : Formed .statement (.classDecl name parent methods) :=
    (hloc.everywhere hroots).here.formed
  have hmembers : Formed .members methods :=
    ((hloc.child 2 rfl rfl).everywhere hroots).here.formed
  obtain ⟨s, hs, hw⟩ := (hform.isName_declared rfl).exists_key
  cases hmembers with
  | @members items =>
  refine (safe_superclass h hform heval).bind fun found w₁ hl₁ ⟨hfound, hparent⟩ => ?_
  have hlinked₁ : Linked w₁ display w₁.machine.current := hl₁.current ▸ hl.mono hl₁.grows
  have ho₁ : Open w₁ w₁.machine.current := hl₁.current ▸ ho.mono hl₁.grows
  refine .lift hs ((safe_define hl₁.sound (v := .nil) hlinked₁ ho₁ hw trivial).bind ?_)
  rintro _ w₂ hl₂ rfl
  have ha₂ := (ha.mono hl₁.grows).bindReady hlinked₁ hs .nil
  have hlinked₂ := hlinked₁.mono hl₂.grows
  refine .look ?_
  -- Between entering and leaving the scope of the superclass nothing can stop.
  refine (makes_enterSuper hl₂.sound hlinked₂ ha₂ p
    (fun c hc => (hparent c hc).mono hl₂.grows)).from ?_
  rintro _ w₃ hs₃ hg₃ ⟨hlinked₃, ha₃, hleave⟩
  refine Makes.from (P := fun found w' => found = items ∧ w₃ = w')
    ⟨_, _, rfl, hs₃, .refl _, rfl, rfl⟩ ?_
  rintro _ _ - - ⟨rfl, rfl⟩
  refine (makes_methodsOf hs₃ hlinked₃ ha₃ (fun j t hj => ?_) methods_empty).from ?_
  · rw [Nat.zero_add]
    exact methodAt_of_located hroots hloc hfound hj
  rintro made w₄ hs₄ hg₄ ⟨hc₄, hmade⟩
  let k : Class := { name := .ofText s, superclass := found, methods := made }
  have hg₅ := w₄.grows_addClass k
  refine Makes.from (P := fun c w' => c = ⟨w₄.machine.store.classes.size⟩ ∧ w' = w₄.addClass k)
    ⟨_, _, rfl, hs₄.addClass ⟨s, rfl⟩ hmade.isMethod, hg₅, rfl, rfl⟩ ?_
  rintro _ _ hs₅ - ⟨rfl, rfl⟩
  refine Makes.from (P := fun _ w' => w' = (w₄.addClass k).enter w₁.machine.current)
    ⟨_, _, hleave _ (hg₄.trans hg₅) hc₄, hs₅.enter _, Watched.grows_enter _ _, rfl⟩ ?_
  rintro _ w₆ hs₆ hg₆ rfl
  have hl₆ : Later roots (w₁.define w₁.machine.current (.ofText s) .nil)
      ((w₄.addClass k).enter w₁.machine.current) :=
    ⟨hs₆, hg₃.trans (hg₄.trans (hg₅.trans hg₆)), rfl⟩
  refine hl₆.safeFrom ?_
  have hc : Valid roots ((w₄.addClass k).enter w₁.machine.current)
      (.cls ⟨w₄.machine.store.classes.size⟩) := by
    refine ⟨k, ?_⟩
    simp [Watched.enter, Watched.addClass, Store.addClass, Store.class?]
  have hlinked₆ : Linked ((w₄.addClass k).enter w₁.machine.current) display w₁.machine.current :=
    hlinked₂.mono hl₆.grows
  have hg₇ := Watched.grows_define hlinked₆.lt_size (.ofText s)
    (.cls ⟨w₄.machine.store.classes.size⟩)
  have ho₆ := (ho₁.mono hl₂.grows).mono hl₆.grows
  refine (safe_define hs₆ hlinked₆ ho₆ hw (hc.mono hg₇)).bind ?_
  rintro _ w₇ hl₇ rfl
  refine (safe_note hl₇.sound (classText_ok hmade.texts)).bind fun _ w₈ hl₈ _ => ?_
  exact .pure hl₈.sound ⟨trivial, ha₂.mono (hl₆.grows.trans (hl₇.grows.trans hl₈.grows))⟩

end LoxLang
