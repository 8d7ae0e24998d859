import LoxLang.Proofs.Sessions
import LoxLang.Proofs.Stacks

/-!
# Scopes of the resolver and scopes of the machine

The resolver counts the scopes between a use and its binding once, before the program runs. The
machine goes as many links along its chain of scopes each time the use is evaluated, on whatever
chain the call has brought it to. `scopes_agree` says that both mean the same scopes, at every tree
that is ever visited in a session.
-/

namespace LoxLang

open Resolver (Frame depthOf?)

/-- An accepted program was resolved without a problem. -/
theorem Program.Accepted.resolved_eq {q : Program} (h : q.Accepted) :
    ∃ s, Resolver.program Tree.maxDepth q.parsed {} = .ok q.resolved s ∧ s.problems = #[] := by
  obtain ⟨source, -, hp⟩ := h.parsed
  obtain ⟨trees, s, hx, -⟩ := Resolver.exists_program (named_scan source) (shaped_parse hp)
    Tree.maxDepth
  have hstatements := h.statements
  have hproblems := h.problems
  unfold resolve at hstatements hproblems
  rw [hx] at hstatements hproblems
  cases hstatements
  exact ⟨s, hx, Array.ext' hproblems⟩

/-! ## Uses -/

namespace Visit

/-- Reading a name with a depth gives what it is bound to in the scope of the display that the depth
leads to. Reading a name without a depth gives what it is bound to in the globals. -/
def Reads (v : Visit) (slot : Tree) (key : Name) : Option Nat → Prop
  | some d => ∃ r value, v.display[d]? = some r ∧ v.machine.store.bound? r key = some value ∧
      Exec.lookUp slot (some d) v.machine = .ok value v.machine
  | none => ∃ line, Exec.lookUp slot none v.machine =
      match v.machine.store.bound? v.machine.globals key with
      | some value => .ok value v.machine
      | none => .error (.runtime (Store.undefined key line)) v.machine

/-- Assigning to a name with a depth changes the scope of the display that the depth leads to.
Assigning to a name without a depth changes the globals, if they bind the name. -/
def Writes (v : Visit) (slot : Tree) (key : Name) : Option Nat → Prop
  | some d => ∃ r, v.display[d]? = some r ∧ ∀ value, Exec.assign slot (some d) value v.machine =
      .ok () { v.machine with store := v.machine.store.define r key value }
  | none => ∃ line, ∀ value, Exec.assign slot none value v.machine =
      if (v.machine.store.bound? v.machine.globals key).isSome then
        .ok () { v.machine with store := v.machine.store.define v.machine.globals key value }
      else .error (.runtime (Store.undefined key line)) v.machine

/-- A use has the depth that a stack of scopes gives it, and it reads or writes the scope of the
display that this depth leads to. -/
def Uses (v : Visit) (stack : List Frame) : Prop :=
  match v.tree with
  | .ident name depth =>
    ∃ key, name.asName = .ok key ∧ depth = depthOf? stack key ∧ v.Reads name key depth
  | .assign name _ depth =>
    ∃ key, name.asName = .ok key ∧ depth = depthOf? stack key ∧ v.Writes name key depth
  | .thisRef keyword depth =>
    ∃ d, depth = some d ∧ depthOf? stack (.ofText "this") = some d ∧
      v.Reads keyword (.ofText "this") depth
  | .superRef _ _ depth => ∃ d r r' parent this, depth = some (d + 1) ∧
      depthOf? stack (.ofText "super") = some (d + 1) ∧
      depthOf? stack (.ofText "this") = some d ∧
      v.display[d + 1]? = some r ∧ v.machine.store.bound? r (.ofText "super") = some (.cls parent) ∧
      v.display[d]? = some r' ∧ v.machine.store.bound? r' (.ofText "this") = some this ∧
      v.machine.store.lookupAt (d + 1) v.machine.current (.ofText "super") = .ok (.cls parent) ∧
      v.machine.store.lookupAt d v.machine.current (.ofText "this") = .ok this
  | _ => True

end Visit

variable {roots : List Tree} {origins : Array (Option Site)} {c : Context} {v : Visit}

/-- The name is read from where the resolver has found it. -/
theorem Agrees.reads (h : Agrees roots origins c v) {slot : Tree} {key : Name}
    (hkey : slot.asName = .ok key) {depth : Option Nat} (hfound : ∀ d, depth = some d →
      ∃ r, v.display[d]? = some r ∧ (v.machine.store.bound? r key).isSome) :
    v.Reads slot key depth := by
  cases depth with
  | some d =>
    obtain ⟨r, hr, hb⟩ := hfound d rfl
    obtain ⟨value, hv⟩ := Option.isSome_iff_exists.1 hb
    exact ⟨r, value, hr, hv, lookUp_some hkey h.chain hr hv⟩
  | none =>
    obtain ⟨token, ht, hname⟩ := Tree.exists_of_asName hkey
    exact ⟨token.line, lookUp_none ht hname h.globals⟩

/-- The name is written to where the resolver has found it. -/
theorem Agrees.writes (h : Agrees roots origins c v) {slot : Tree} {key : Name}
    (hkey : slot.asName = .ok key) {depth : Option Nat} (hd : depth = depthOf? c.scopes key) :
    v.Writes slot key depth := by
  cases depth with
  | some d =>
    obtain ⟨_, _, hs, -⟩ := Resolver.exists_of_depthOf? hd.symm
    have hlt : d < v.display.length := h.length ▸ (List.getElem?_eq_some_iff.1 hs).1
    have hr := List.getElem?_eq_getElem hlt
    exact ⟨_, hr, assign_some hkey h.chain hr⟩
  | none =>
    obtain ⟨token, ht, hname⟩ := Tree.exists_of_asName hkey
    exact ⟨token.line, assign_none ht hname h.globals⟩

theorem Agrees.lookupAt (h : Agrees roots origins c v) {d : Nat} {r : ScopeRef} {key : Name}
    {value : Value} (hr : v.display[d]? = some r) (hb : v.machine.store.bound? r key = some value) :
    v.machine.store.lookupAt d v.machine.current key = .ok value := by
  refine Store.lookupAt_of_chain ?_ hb
  rw [h.chain, List.getElem?_append_left (List.getElem?_eq_some_iff.1 hr).1]
  exact hr

/-- A visit that agrees uses the scopes of the resolver. -/
theorem Agrees.uses (h : Agrees roots origins c v) (hform : Formed c.role v.tree) :
    v.Uses c.scopes := by
  have hfound := h.found
  obtain ⟨p, t, display, m⟩ := v
  obtain ⟨role, scopes⟩ := c
  unfold Visit.Uses
  dsimp only at hfound hform ⊢
  cases hform with
  | ident hname =>
    obtain ⟨_, hkey, -⟩ := hname.exists_key
    obtain ⟨hd, hb⟩ := hfound _ hkey
    exact ⟨_, hkey, hd, h.reads hkey hb⟩
  | assign hname =>
    obtain ⟨_, hkey, -⟩ := hname.exists_key
    exact ⟨_, hkey, hfound _ hkey, h.writes hkey (hfound _ hkey)⟩
  | thisRef hword =>
    obtain ⟨d, r, rfl, hd, hr, hb⟩ := hfound
    refine ⟨d, rfl, hd, h.reads hword.asName ?_⟩
    rintro _ ⟨⟩
    exact ⟨r, hr, hb⟩
  | superRef =>
    obtain ⟨d, r, r', parent, rfl, hs, ht, hr, hb, hr', hb'⟩ := hfound
    obtain ⟨this, hthis⟩ := Option.isSome_iff_exists.1 hb'
    exact ⟨d, r, r', parent, this, rfl, hs, ht, hr, hb, hr', hthis, h.lookupAt hr hb,
      h.lookupAt hr' hthis⟩
  | _ => trivial

/-! ## Visits of a session -/

/-- Whatever is done in a session, at every tree that is visited the scopes of the machine are those
that the resolver had open there, each made by the site that the resolver had opened it for, and
around them are the globals. Each use reads or writes the scope that the resolver chose for it. -/
theorem scopes_agree (detail : Nat) (clock : Clock) (acts : List Act) :
    let o := (Observation.start detail clock).after acts
    o.session = (Session.start detail clock).after acts ∧
    o.origins.size = o.session.machine.store.scopes.size ∧
    ∀ v ∈ o.visits, ∃ q stack, o.programs[v.position.program]? = some q ∧ q.Accepted ∧
      (Tree.list q.resolved).at? v.position.path = some v.tree ∧
      stackAt q.parsed v.position.path = some stack ∧
      v.machine.globals = o.session.machine.globals ∧
      v.machine.store.chain v.machine.current = v.display ++ [v.machine.globals] ∧
      v.display.length = stack.length ∧
      v.display.map (fun r => o.origins[r.index]?) =
        (sitesAt (.list q.resolved) v.position.program v.position.path).map (some ∘ some) ∧
      v.Uses stack := by
  intro o
  have h : InOrder o := (InOrder.start detail clock).after acts
  refine ⟨Observation.session_after acts _, h.sound.size_origins, fun v hv => ?_⟩
  obtain ⟨c, hc⟩ := h.sound.visits v hv
  obtain ⟨root, hroot, htree, hcontext⟩ := hc.located
  obtain ⟨q, hq, rfl⟩ : ∃ q, o.programs[v.position.program]? = some q ∧ .list q.resolved = root := by
    rw [Observation.roots, List.getElem?_map] at hroot
    exact Option.map_eq_some_iff.1 hroot
  have haccepted := h.accepted q (List.mem_of_getElem? hq)
  have hpath : v.position.path ≠ [] := by
    intro he
    rw [he] at hcontext
    cases hcontext
    exact hc.role rfl
  obtain ⟨s, hs, hp⟩ := haccepted.resolved_eq
  have hstack := stackAt_eq haccepted.wellFormed haccepted.entries hs hp hpath htree hcontext
  have hsites : sitesOf o.roots v.position =
      sitesAt (.list q.resolved) v.position.program v.position.path := by
    unfold sitesOf
    rw [hroot]
    rfl
  have hform := (everywhere_at haccepted.fine htree hcontext).here.formed
  exact ⟨q, c.scopes, hq, haccepted, htree, hstack, hc.first.trans h.sound.first.symm, hc.chain,
    hc.length.symm, hsites ▸ hc.origins, hc.uses hform⟩

/-- A function is made in one run and called in another, where its variable has a namesake. -/
def closureActs : List Act :=
  [.run "fun f() { var a = nil; fun g() { return a; } return g; } var h = f();",
    .run "{ var a = true; h(); }"]

/-- The use of a name that is found one scope out. -/
def Visit.isOuterUse (v : Visit) : Bool :=
  match v.tree with
  | .ident _ (some 1) => true
  | _ => false

/-- A use in a closure that is called later. -/
theorem scopes_agree_closure : ∃ v ∈ ((Observation.start 0 (.still 0)).after closureActs).visits,
    v.isOuterUse = true ∧ ∃ (q : Program) (stack : List Frame),
      stackAt q.parsed v.position.path = some stack ∧
      v.machine.store.chain v.machine.current = v.display ++ [v.machine.globals] ∧
      v.display.length = stack.length ∧ v.Uses stack := by
  have hany :
      ((Observation.start 0 (.still 0)).after closureActs).visits.any Visit.isOuterUse = true := by
    decide +kernel
  obtain ⟨v, hv, hd⟩ := Array.any_eq_true'.1 hany
  obtain ⟨-, -, h⟩ := scopes_agree 0 (.still 0) closureActs
  obtain ⟨q, stack, -, -, -, hstack, -, hchain, hlength, -, huses⟩ := h v hv
  exact ⟨v, hv, hd, q, stack, hstack, hchain, hlength, huses⟩

end LoxLang
