import LoxLang.Proofs.Judgement
import LoxLang.Proofs.Sessions

/-!
# Back in the scope of the beginning

Two mechanisms move the machine to another scope. A block and a call run in a scope of their own and
leave it however they end. A class with a superclass enters the scope that binds `super` and leaves
it by hand, after its methods are made. `Leaves` says of a computation that it leaves the machine in
the scope where it found it, unless a method without a name stops it in between: then the machine
stays in the scope of `super` (`InSuper`). It holds of every step, and so of the four walks over any
tree on any machine (`leaves_walks`). Only a statement that declares such a class outside all of its
blocks can leave the machine astray (`Tree.strands`).

`Returns` says the same of everything but malformed trees: of the errors of the language, of an
overflow and of a loop that has used up its rounds none can stop the machine between entering and
leaving. A run therefore leaves the machine in its globals, where it has begun (`scope_restored`).
-/

namespace LoxLang

/-- The scope is there, and no scope is around it. -/
structure Store.RootAt (s : Store) (r : ScopeRef) : Prop where
  lt : r.index < s.scopes.size
  enclosing : s.enclosing? r = none

namespace Store.RootAt

variable {s : Store} {r : ScopeRef}

theorem of_scopes {s' : Store} (h : s.RootAt r) (hs : s'.scopes = s.scopes) : s'.RootAt r :=
  ⟨by rw [hs]; exact h.lt, by rw [enclosing?, scope, hs]; exact h.enclosing⟩

theorem define (h : s.RootAt r) (r' : ScopeRef) (name : Name) (value : Value) :
    (s.define r' name value).RootAt r :=
  ⟨by simpa [Store.define] using h.lt, by rw [enclosing?_define, h.enclosing]⟩

theorem addScope (h : s.RootAt r) (enclosing : Option ScopeRef) :
    (s.addScope enclosing).2.RootAt r :=
  ⟨by simpa [Store.addScope] using Nat.lt_succ_of_lt h.lt, by
    rw [enclosing?, scope_addScope_of_lt _ _ h.lt]
    exact h.enclosing⟩

theorem bindMethod (h : s.RootAt r) (f : FunctionRef) (this : Value) :
    (s.bindMethod f this).2.RootAt r := by
  unfold Store.bindMethod
  split
  · exact h
  · exact ((h.addScope _).define _ _ _).of_scopes rfl

end Store.RootAt

/-- The same globals, and the same scope as the current one. If the globals are outermost, they
still are. -/
structure Machine.Back (m m' : Machine) : Prop where
  globals : m'.globals = m.globals
  current : m'.current = m.current
  root : m.store.RootAt m.globals → m'.store.RootAt m.globals

namespace Machine.Back

variable {m m' m'' : Machine}

theorem refl (m : Machine) : m.Back m := ⟨rfl, rfl, id⟩

/-- The scopes are the same ones. -/
theorem of_scopes (hglobals : m'.globals = m.globals) (hcurrent : m'.current = m.current)
    (hscopes : m'.store.scopes = m.store.scopes) : m.Back m' :=
  ⟨hglobals, hcurrent, fun hroot => hroot.of_scopes hscopes⟩

theorem trans (h : m.Back m') (h' : m'.Back m'') : m.Back m'' where
  globals := h'.globals.trans h.globals
  current := h'.current.trans h.current
  root := fun hroot => h.globals ▸ h'.root (h.globals ▸ h.root hroot)

end Machine.Back

/-- The same globals, and a current scope right inside the one before, which binds `super` to a
class and nothing else. -/
structure Machine.InSuper (m m' : Machine) : Prop where
  globals : m'.globals = m.globals
  root : m.store.RootAt m.globals → m'.store.RootAt m.globals
  enclosing : m'.store.enclosing? m'.current = some m.current
  bindings : ∃ c, (m'.store.scope m'.current).bindings = .single (.ofText "super") (.cls c)

variable {m m' m'' : Machine} {α : Type} {fails : Bool}

theorem Machine.InSuper.after (h : m'.InSuper m'') (hm : m.Back m') : m.InSuper m'' where
  globals := h.globals.trans hm.globals
  root := fun hroot => hm.globals ▸ h.root (hm.globals ▸ hm.root hroot)
  enclosing := h.enclosing.trans (congrArg some hm.current)
  bindings := h.bindings

/-- In the scope of `super` the machine is not in its globals. -/
theorem Machine.InSuper.current_ne (h : m.InSuper m') (hroot : m.store.RootAt m.globals) :
    m'.current ≠ m'.globals := by
  intro hcurrent
  have henclosing := h.enclosing
  rw [hcurrent, h.globals, (h.root hroot).enclosing] at henclosing
  cases henclosing

/-- The machine is back, or it may be stranded by a fault and is in the scope of `super`. -/
def Machine.LeftBy (strands : Bool) (fault : Prop) (m m' : Machine) : Prop :=
  m.Back m' ∨ strands = true ∧ fault ∧ m.InSuper m'

namespace Machine.LeftBy

variable {strands : Bool} {fault : Prop} {m m' m'' : Machine}

theorem after (h : LeftBy strands fault m' m'') (hm : m.Back m') : LeftBy strands fault m m'' :=
  h.imp hm.trans fun hstranded => ⟨hstranded.1, hstranded.2.1, hstranded.2.2.after hm⟩

theorem back (h : LeftBy strands fault m m') (hfault : ¬ fault) : m.Back m' :=
  h.resolve_right fun hstranded => hfault hstranded.2.1

theorem globals (h : LeftBy strands fault m m') : m'.globals = m.globals := by
  obtain hback | ⟨-, -, hin⟩ := h
  · exact hback.globals
  · exact hin.globals

theorem root (h : LeftBy strands fault m m') (hroot : m.store.RootAt m.globals) :
    m'.store.RootAt m.globals := by
  obtain hback | ⟨-, -, hin⟩ := h
  · exact hback.root hroot
  · exact hin.root hroot

end Machine.LeftBy

namespace Exec

/-- The computation leaves the machine in the scope where it found it, whatever it gives and
whatever stops it. If it strands, a malformed tree can stop it in the scope of `super`. -/
def Leaves {α : Type} (strands : Bool) (x : Exec α) : Prop :=
  ∀ m, Ends x m (fun _ m' => m.Back m') fun e m' =>
    m.LeftBy strands (∃ fault, e = .fault fault) m'

section Leaves

variable {α β : Type} {strands : Bool} {x : Exec α} {f : α → Exec β}

theorem Leaves.mono {inner : Bool} (h : Leaves inner x) (hs : inner = true → strands = true) :
    Leaves strands x :=
  fun m => Ends.imp (h m) (fun _ _ h => h) fun _ _ h =>
    h.imp id fun hstranded => ⟨hs hstranded.1, hstranded.2⟩

/-- What never strands may be said to strand. -/
theorem Leaves.weaken (h : Leaves false x) : Leaves strands x :=
  h.mono nofun

theorem leaves_pure (a : α) : Leaves strands (pure a : Exec α) :=
  fun m => Ends.pure (.refl m)

theorem leaves_throw (e : Stop) : Leaves strands (throw e : Exec α) :=
  fun m => Ends.throw (.inl (.refl m))

theorem Leaves.bind (hx : Leaves strands x) (hf : ∀ a, Leaves strands (f a)) :
    Leaves strands (x >>= f) := by
  intro m
  refine Ends.bind (hx m) fun a m' hm => ?_
  exact Ends.imp (hf a m') (fun _ _ h => hm.trans h) fun _ _ h => h.after hm

/-- A look at the machine. -/
theorem Leaves.look {f : Machine → Exec β} (hf : ∀ m, Leaves strands (f m)) :
    Leaves strands (get >>= f) :=
  fun m => hf m m

/-- A change of anything but the globals and the current scope. -/
theorem leaves_modify {g : Machine → Machine} (h : ∀ m : Machine, m.Back (g m)) :
    Leaves strands (modify g) :=
  fun m => ends_modify (h m)

theorem back_note (m : Machine) (level : Nat) (line : String) : m.Back (m.note level line) := by
  unfold Machine.note
  split
  · exact .of_scopes rfl rfl rfl
  · exact .refl m

theorem leaves_note (level : Nat) (line : Machine → Except Fault String) :
    Leaves strands (note level line) := by
  refine .look fun m => ?_
  split
  · cases line m with
    | ok text => exact leaves_modify fun m => back_note m level text
    | error fault => exact leaves_throw _
  · exact leaves_pure ()

/-- A block goes back to the scope before it, wherever its statements have left the machine. -/
theorem leaves_inScope {inner : Bool} (hx : Leaves inner x) (r : ScopeRef) :
    Leaves strands (inScope r x) := by
  intro m
  unfold Ends inScope
  cases hm : x { m with current := r } with
  | ok a m' => exact ⟨((hx _).ok hm).globals, rfl, ((hx _).ok hm).root⟩
  | error e m' => exact .inl ⟨((hx _).error hm).globals, rfl, ((hx _).error hm).root⟩

/-- The check for overflow leaves the scope as it is. -/
theorem leaves_overflowAt {slot : Tree} (hx : Leaves strands x)
    (hraise : Leaves strands (raise slot .stackOverflow : Exec α)) :
    Leaves strands (overflowAt slot x) := by
  intro m
  unfold Ends overflowAt
  cases hm : x m with
  | ok a m' => exact (hx m).ok hm
  | error e m' =>
    have hleft := (hx m).error hm
    cases e with
    | overflow =>
      have hback := hleft.back nofun
      exact Ends.imp (hraise m') (fun _ _ h => hback.trans h) fun _ _ h => h.after hback
    | _ => exact hleft

/-- Steps around others leave the machine where they found it, if those do. -/
theorem rules_leaves : Rules fun strands _ x => Leaves strands x where
  pure := leaves_pure
  throw := leaves_throw
  bind := .bind
  mono := .mono
  look hf _ := .look hf
  note _ _ := leaves_note _ _
  modify hg := leaves_modify fun m => .of_scopes (hg.globals m) (hg.current m) (hg.scopes m)
  define name value := leaves_modify fun _ => ⟨rfl, rfl, fun hroot => hroot.define _ name value⟩
  defineIn r name value := leaves_modify fun _ => ⟨rfl, rfl, fun hroot => hroot.define r name value⟩
  addScope _ := fun _ => Ends.of_ok rfl ⟨rfl, rfl, fun hroot => hroot.addScope _⟩
  addFunction _ := fun _ => Ends.of_ok rfl (.of_scopes rfl rfl rfl)
  addObject _ := fun _ => Ends.of_ok rfl (.of_scopes rfl rfl rfl)
  bindMethod r this := fun _ => Ends.of_ok rfl ⟨rfl, rfl, fun hroot => hroot.bindMethod r this⟩
  inScope := leaves_inScope
  overflowAt := leaves_overflowAt

end Leaves

/-! ## Classes -/

/-- The globals, the current scope and all that the scopes hold are the same. -/
structure SameScopes (m m' : Machine) : Prop where
  back : m.Back m'
  scopes : m'.store.scopes = m.store.scopes

theorem SameScopes.trans (h : SameScopes m m') (h' : SameScopes m' m'') : SameScopes m m'' :=
  ⟨h.back.trans h'.back, h'.scopes.trans h.scopes⟩

/-- The computation changes no scope. Whether it meets a malformed tree is known. -/
def KeepsScopes {α : Type} (fails : Bool) (x : Exec α) : Prop :=
  ∀ m, Ends x m (fun _ m' => fails = false ∧ SameScopes m m') fun e m' =>
    fails = true ∧ (∃ fault, e = .fault fault) ∧ SameScopes m m'

section KeepsScopes

variable {α β : Type} {fails inner : Bool} {x : Exec α} {f : α → Exec β}

theorem keepsScopes_pure (a : α) : KeepsScopes false (pure a : Exec α) :=
  fun m => Ends.pure ⟨rfl, .refl m, rfl⟩

theorem KeepsScopes.bind (hx : KeepsScopes inner x) (hf : ∀ a, KeepsScopes fails (f a)) :
    KeepsScopes (inner || fails) (x >>= f) := by
  intro m
  refine Ends.bind (Ends.imp (hx m) (fun _ _ h => h) fun _ _ ⟨hi, hfault, hm⟩ => ?_) ?_
  · exact ⟨by rw [hi, Bool.true_or], hfault, hm⟩
  · rintro a m' ⟨rfl, hm⟩
    exact Ends.imp (hf a m') (fun _ _ ⟨hfails, hm'⟩ => ⟨hfails, hm.trans hm'⟩)
      fun _ _ ⟨hfails, hfault, hm'⟩ => ⟨hfails, hfault, hm.trans hm'⟩

/-- A slot is read. -/
theorem keepsScopes_lift {r : Except Fault α} (hf : ∀ a, r = .ok a → KeepsScopes fails (f a))
    (he : ∀ fault, r = .error fault → fails = true) : KeepsScopes fails (lift r >>= f) := by
  cases r with
  | ok a => exact hf a rfl
  | error fault => exact fun m => Ends.throw ⟨he fault rfl, ⟨fault, rfl⟩, .refl m, rfl⟩

/-- Methods are made exactly if they have names. -/
theorem keepsScopes_methodsOf (ts : List Tree) :
    ∀ done, KeepsScopes (!ts.all Tree.isNamed) (methodsOf done ts) := by
  induction ts with
  | nil => exact fun _ => keepsScopes_pure _
  | cons t ts ih =>
    intro done
    have hadd (f : Function) : KeepsScopes false (addFunction f) :=
      fun _ => Ends.of_ok rfl ⟨rfl, .of_scopes rfl rfl rfl, rfl⟩
    rw [List.all_cons]
    refine keepsScopes_lift (fun token htoken => ?_) fun fault hfault => ?_
    · refine keepsScopes_lift (fun name hname => ?_) fun fault hfault => ?_
      · have hnamed : t.isNamed = true := by
          simp [Tree.isNamed, htoken, hname, Except.isOk, Except.toBool]
        rw [hnamed, Bool.true_and]
        exact fun m => ((hadd _).bind fun r => ih _) m
      · simp [Tree.isNamed, htoken, hfault, Except.isOk, Except.toBool]
    · simp [Tree.isNamed, hfault]

/-- Make the methods of a class, and the class. -/
def makeClass (name : Name) (parent : Option ClassRef) (methods : Tree) :
    Exec (Bindings Name FunctionRef × ClassRef) := do
  let items ← lift methods.asItems
  let made ← methodsOf .empty items
  let c ← addClass { name, superclass := parent, methods := made }
  return (made, c)

/-- Bind the name of a class to the class. -/
def bindClass (name : Name) (parent : Option ClassRef)
    (made : Bindings Name FunctionRef × ClassRef) : Exec Completion := do
  define name (.cls made.2)
  note 2 fun m => classText m name parent made.1
  return .normal

/-- A class is made in the scope that binds `super`, and bound outside of it. -/
theorem declareClass_eq (evaluate : Tree → Exec Value) (slot parent methods : Tree) :
    declareClass evaluate slot parent methods = (do
      let c ← superclass evaluate parent
      let name ← lift slot.asName
      define name .nil
      enterSuper c
      let made ← makeClass name c methods
      leaveSuper c
      bindClass name c made) := by
  simp only [declareClass, makeClass, bindClass, bind_assoc, pure_bind]

theorem keepsScopes_makeClass (name : Name) (parent : Option ClassRef) (methods : Tree) :
    KeepsScopes (!methods.methodsNamed) (makeClass name parent methods) := by
  have hadd (k : Class) : KeepsScopes false (addClass k) :=
    fun _ => Ends.of_ok rfl ⟨rfl, .of_scopes rfl rfl rfl, rfl⟩
  rw [Tree.methodsNamed]
  refine keepsScopes_lift (fun items hitems => ?_) fun fault hfault => by rw [hfault]; rfl
  rw [hitems]
  have hmake := (keepsScopes_methodsOf items .empty).bind fun made =>
    (hadd { name, superclass := parent, methods := made }).bind fun c => keepsScopes_pure (made, c)
  rw [Bool.or_self, Bool.or_false] at hmake
  exact hmake

end KeepsScopes

variable {x : Exec α}

/-- Steps in the scope that binds `super`. -/
theorem ends_inSuper (hx : KeepsScopes fails x) (c : ClassRef) (m : Machine) :
    Ends (enterSuper (some c) >>= fun _ => x) m (fun _ m' => fails = false ∧ m.InSuper m')
      fun e m' => fails = true ∧ (∃ fault, e = .fault fault) ∧ m.InSuper m' := by
  let inside : Machine := { m with
    store := (m.store.addScope (some m.current)).2.define ⟨m.store.scopes.size⟩ (.ofText "super")
      (.cls c)
    current := ⟨m.store.scopes.size⟩ }
  have henter : enterSuper (some c) m = .ok () inside := rfl
  have hscope : inside.store.scope inside.current =
      { enclosing := some m.current, bindings := .single (.ofText "super") (.cls c) } := by
    have hlt : m.store.scopes.size < (m.store.addScope (some m.current)).2.scopes.size := by
      simp [Store.addScope]
    have hnew := Store.scope_addScope_self m.store (some m.current)
    refine (Store.scope_define_self _ hlt _ _).trans ?_
    exact congrArg (fun scope : Scope =>
      { scope with bindings := scope.bindings.insert (.ofText "super") (.cls c) }) hnew
  have hin {m' : Machine} (h : SameScopes inside m') : m.InSuper m' := by
    have hsame : m'.store.scope m'.current = inside.store.scope inside.current := by
      rw [Store.scope, Store.scope, h.scopes, h.back.current]
    refine ⟨h.back.globals, fun hroot => h.back.root ?_, ?_, c, ?_⟩
    · exact (hroot.addScope _).define _ _ _
    · rw [Store.enclosing?, hsame, hscope]
    · rw [hsame, hscope]
  refine Ends.bind (P := fun _ m' => m' = inside) (Ends.of_ok henter rfl) ?_
  rintro _ _ rfl
  exact Ends.imp (hx inside) (fun _ _ h => ⟨h.1, hin h.2⟩) fun _ _ h => ⟨h.1, h.2.1, hin h.2.2⟩

/-- The scope that binds `super` is left for the one around it. -/
theorem back_leaveSuper (h : m.InSuper m') :
    m.Back { m' with current := (m'.store.enclosing? m'.current).getD m'.current } := by
  refine ⟨h.globals, ?_, h.root⟩
  rw [h.enclosing]
  rfl

/-- If the computation stalls, a malformed tree stops it in the scope of `super`. If not, it leaves
the machine in the scope where it found it. -/
structure Settles {α : Type} (stalls : Prop) (x : Exec α) (m : Machine) : Prop where
  stuck : stalls → ∃ fault m', x m = .error (.fault fault) m' ∧ m.InSuper m'
  back : ¬ stalls → Ends x m (fun _ m' => m.Back m') fun _ m' => m.Back m'

section Settles

variable {α β : Type} {P P' : Prop} {x : Exec α} {f : α → Exec β} {m : Machine}

theorem Settles.congr (h : Settles P x m) (hP : P' ↔ P) : Settles P' x m :=
  ⟨fun hp => h.stuck (hP.1 hp), fun hn => h.back fun hp => hn (hP.2 hp)⟩

theorem Leaves.settles (h : Leaves false x) (m : Machine) : Settles False x m :=
  ⟨False.elim, fun _ => Ends.imp (h m) (fun _ _ h => h) fun _ _ h =>
    h.resolve_right fun hstranded => Bool.false_ne_true hstranded.1⟩

/-- Two steps stall where the first does, or the second after it. -/
theorem Settles.bind {Q : α → Machine → Prop} (hx : Settles P x m)
    (hf : ∀ a m', x m = .ok a m' → Settles (Q a m') (f a) m') :
    Settles (P ∨ ∃ a m', x m = .ok a m' ∧ Q a m') (x >>= f) m := by
  have hback {a : α} {m' : Machine} (hm : x m = .ok a m') : m.Back m' := by
    refine (hx.back fun hp => ?_).ok hm
    obtain ⟨fault, m₁, he, -⟩ := hx.stuck hp
    rw [hm] at he
    cases he
  refine ⟨?_, fun hn => ?_⟩
  · rintro (hp | ⟨a, m₁, hm, hq⟩)
    · obtain ⟨fault, m', he, hin⟩ := hx.stuck hp
      exact ⟨fault, m', bind_of_error he, hin⟩
    · obtain ⟨fault, m', he, hin⟩ := (hf a m₁ hm).stuck hq
      exact ⟨fault, m', (bind_of_ok hm).trans he, hin.after (hback hm)⟩
  · obtain ⟨hp, hq⟩ := not_or.1 hn
    unfold Ends
    cases hm : x m with
    | ok a m₁ =>
      rw [bind_of_ok hm]
      refine Ends.imp ((hf a m₁ hm).back fun h => hq ⟨a, m₁, hm, h⟩) ?_ ?_
      · exact fun _ _ h => (hback hm).trans h
      · exact fun _ _ h => (hback hm).trans h
    | error e m₁ =>
      rw [bind_of_error hm]
      exact (hx.back hp).error hm

/-- What stalls only where it may strand leaves the machine accordingly. -/
theorem leaves_of_settles {strands : Bool} {stalls : Machine → Prop}
    (h : ∀ m, Settles (stalls m) x m) (hs : ∀ m, stalls m → strands = true) : Leaves strands x := by
  intro m
  by_cases hm : stalls m
  · obtain ⟨fault, m', he, hin⟩ := (h m).stuck hm
    exact Ends.of_error he (.inr ⟨hs m hm, ⟨fault, rfl⟩, hin⟩)
  · exact Ends.imp ((h m).back hm) (fun _ _ h => h) fun _ _ h => .inl h

/-- The scope that binds `super` is entered and left around steps that keep the scopes. -/
theorem settles_insideSuper (parent : Option ClassRef) (hx : KeepsScopes fails x)
    (hf : ∀ a, Leaves false (f a)) (m : Machine) :
    Settles (parent.isSome = true ∧ fails = true)
      (enterSuper parent >>= fun _ => x >>= fun a => leaveSuper parent >>= fun _ => f a) m := by
  cases parent with
  | none =>
    have hx' : Leaves false x :=
      fun m => Ends.imp (hx m) (fun _ _ h => h.2.back) fun _ _ h => .inl h.2.2.back
    have hall := (leaves_pure ()).bind fun _ => hx'.bind fun a =>
      (leaves_pure ()).bind fun _ => hf a
    exact (hall.settles m).congr ⟨fun h => absurd h.1 Bool.false_ne_true, False.elim⟩
  | some c =>
    have hin := ends_inSuper hx c m
    rw [← bind_assoc]
    cases hm : (enterSuper (some c) >>= fun _ => x) m with
    | error e m₁ =>
      obtain ⟨hfails, ⟨fault, rfl⟩, hsuper⟩ := hin.error hm
      exact ⟨fun _ => ⟨fault, m₁, bind_of_error hm, hsuper⟩, fun hn => absurd ⟨rfl, hfails⟩ hn⟩
    | ok a m₁ =>
      obtain ⟨hfails, hsuper⟩ := hin.ok hm
      refine ⟨fun h => absurd (hfails.symm.trans h.2) Bool.false_ne_true, fun _ => ?_⟩
      refine Ends.step hm ?_
      refine Ends.bind (P := fun _ m' => m.Back m') (ends_modify (back_leaveSuper hsuper)) ?_
      intro _ m₂ hback
      have hrest := ((hf a).settles m₂).back id
      exact Ends.imp hrest (fun _ _ h => hback.trans h) fun _ _ h => hback.trans h

/-- A class stalls exactly if its superclass is a class, it has a name, and its methods cannot be
made. -/
theorem settles_declareClass {evaluate : Tree → Exec Value} (h : ∀ t, Leaves false (evaluate t))
    (slot parent methods : Tree) (m : Machine) :
    Settles (methods.methodsNamed = false ∧ (∃ name, slot.asName = .ok name) ∧
        ∃ c m', superclass evaluate parent m = .ok (some c) m')
      (declareClass evaluate slot parent methods) m := by
  rw [declareClass_eq]
  have hafter (name : Name) (c : Option ClassRef) (made : Bindings Name FunctionRef × ClassRef) :
      Leaves false (bindClass name c made) :=
    (rules_leaves.define _ _).bind fun _ => (leaves_note _ _).bind fun _ => leaves_pure _
  refine Settles.congr (((rules_leaves.superclass h parent).settles m).bind fun c m₁ _ =>
    ((rules_leaves.lift slot.asName).settles m₁).bind fun name m₂ _ =>
      ((rules_leaves.define name .nil).settles m₂).bind fun _ m₃ _ =>
        settles_insideSuper c (keepsScopes_makeClass name c methods) (hafter name c) m₃) ?_
  constructor
  · rintro ⟨hmethods, ⟨name, hname⟩, c, m', hsuper⟩
    refine .inr ⟨some c, m', hsuper, .inr ⟨name, m', ?_, .inr ⟨(), _, rfl, rfl, ?_⟩⟩⟩
    · rw [hname]
      rfl
    · rw [hmethods]
      rfl
  · rintro (h | ⟨c, m₁, hsuper, h | ⟨name, m₂, hname, h | ⟨_, m₃, _, hsome, hfails⟩⟩⟩)
    · exact h.elim
    · exact h.elim
    · exact h.elim
    · obtain ⟨c, rfl⟩ := Option.isSome_iff_exists.1 hsome
      refine ⟨by simpa using hfails, ?_, c, m₁, hsuper⟩
      cases hslot : slot.asName with
      | ok name => exact ⟨name, rfl⟩
      | error fault =>
        rw [hslot] at hname
        cases hname

end Settles

/-- There is a superclass only where its slot is not null. -/
theorem isNull_of_superclass {evaluate : Tree → Exec Value} {parent : Tree} {c : ClassRef}
    (h : superclass evaluate parent m = .ok (some c) m') : parent.isNull = false := by
  by_contra hnull
  rw [Bool.not_eq_false] at hnull
  rw [superclass, if_pos hnull] at h
  cases h

theorem judgement_leaves : Judgement fun strands _ x => Leaves strands x where
  toRules := rules_leaves
  declareClass h slot parent methods := by
    refine leaves_of_settles (settles_declareClass h slot parent methods) ?_
    rintro m ⟨hmethods, -, c, m', hsuper⟩
    rw [isNull_of_superclass hsuper, hmethods]
    rfl

/-- The walks over any tree on any machine leave the machine in the scope where they found it. Only
the statements that strand can leave it in the scope of `super`. -/
theorem leaves_walks (rounds room : Nat) :
    (∀ t, Leaves false (evaluate rounds room t)) ∧
    (∀ t, Leaves t.strands (execute rounds room t)) ∧
    (∀ t r, Leaves false (executeBlock rounds room t r)) ∧
    ∀ v arguments paren, Leaves false (call rounds room v arguments paren) :=
  judgement_leaves.walks rounds room

/-- The computation leaves the machine in the scope where it found it, whatever it gives and
whatever stops it, a malformed tree apart. -/
def Returns {α : Type} (x : Exec α) : Prop :=
  ∀ m, Ends x m (fun _ m' => m.Back m') fun e m' => (∀ fault, e ≠ .fault fault) → m.Back m'

theorem Leaves.returns {strands : Bool} (h : Leaves strands x) : Returns x :=
  fun m => Ends.imp (h m) (fun _ _ h => h) fun _ _ h he =>
    h.back fun ⟨fault, hfault⟩ => he fault hfault

/-- Each walk leaves the machine in the scope where it found it, over any tree and on any
machine. -/
theorem returns_walks (rounds room : Nat) :
    (∀ t, Returns (evaluate rounds room t)) ∧
    (∀ t, Returns (execute rounds room t)) ∧
    (∀ t r, Returns (executeBlock rounds room t r)) ∧
    ∀ v arguments paren, Returns (call rounds room v arguments paren) := by
  obtain ⟨hevaluate, hexecute, hblock, hcall⟩ := leaves_walks rounds room
  exact ⟨fun t => (hevaluate t).returns, fun t => (hexecute t).returns,
    fun t r => (hblock t r).returns, fun v arguments paren => (hcall v arguments paren).returns⟩

end Exec

/-! ## Runs -/

namespace Session

/-- The step leaves the machine in the scope where it found it. If it strands, a malformed tree can
stop it in the scope of `super`. -/
def Leaves {α : Type} (strands : Bool) (x : Step α) : Prop :=
  ∀ s, Ends x s (fun _ s' => s.machine.Back s'.machine) fun e s' =>
    s.machine.LeftBy strands (∃ fault, e = .fault fault) s'.machine

section Leaves

variable {α β : Type} {strands : Bool} {x : Step α} {f : α → Step β}

theorem leaves_pure (a : α) : Leaves strands (pure a : Step α) :=
  fun s => Ends.pure (.refl s.machine)

theorem leaves_throw (e : Abort) : Leaves strands (throw e : Step α) :=
  fun s => Ends.throw (.inl (.refl s.machine))

theorem Leaves.bind (hx : Leaves strands x) (hf : ∀ a, Leaves strands (f a)) :
    Leaves strands (x >>= f) := by
  intro s
  refine Ends.bind (hx s) fun a s' hs => ?_
  exact Ends.imp (hf a s') (fun _ _ h => hs.trans h) fun _ _ h => h.after hs

theorem Leaves.look {f : Session → Step β} (hf : ∀ s, Leaves strands (f s)) :
    Leaves strands (get >>= f) :=
  fun s => hf s s

theorem leaves_note (line : String) : Leaves strands (note line) := by
  have hnote : Leaves strands (modify fun s => { s with machine := s.machine.note 1 line }) :=
    fun s => ends_modify (Exec.back_note s.machine 1 line)
  refine .look fun s => ?_
  dsimp only
  split
  · exact (leaves_throw _).bind fun _ => hnote
  · exact hnote

theorem rules_leaves : Rules fun _ x => Leaves strands x where
  pure := leaves_pure
  throw := leaves_throw
  bind := .bind
  look hf _ := .look hf
  note := leaves_note
  modify hg s := by
    obtain ⟨serial, hm⟩ := hg.machine s
    exact ends_modify (hm ▸ .of_scopes rfl rfl rfl)

end Leaves

section OnMachine

variable {t : Tree} {s : Session} {m : Machine}

theorem onMachine_of_ok {completion : Completion}
    (h : Exec.execute maxRounds Tree.maxDepth t s.machine = .ok completion m) :
    onMachine t s = .ok (.ok completion) ⟨m, s.reporter⟩ := by
  rw [onMachine, h]

theorem onMachine_of_error {stop : Stop}
    (h : Exec.execute maxRounds Tree.maxDepth t s.machine = .error stop m) :
    onMachine t s = .ok (.error stop) ⟨m, s.reporter⟩ := by
  rw [onMachine, h]

end OnMachine

/-- A statement of a program leaves the machine as its walk does, where the malformed tree that it
has met is handed on. -/
theorem leaves_onMachine {β : Type} (t : Tree) {f : Except Stop Completion → Step β}
    (hf : ∀ result, Leaves true (f result))
    (hfault : ∀ fault s, f (.error (.fault fault)) s = .error (.fault fault) s) :
    Leaves true (onMachine t >>= f) := by
  intro s
  have hwalk := ((Exec.leaves_walks maxRounds Tree.maxDepth).2.1 t) s.machine
  cases hx : Exec.execute maxRounds Tree.maxDepth t s.machine with
  | ok completion m =>
    have hback := hwalk.ok hx
    refine Ends.step (onMachine_of_ok hx) ?_
    exact Ends.imp (hf _ _) (fun _ _ h => hback.trans h) fun _ _ h => h.after hback
  | error stop m =>
    have hleft := hwalk.error hx
    refine Ends.step (onMachine_of_error hx) ?_
    cases stop with
    | fault fault =>
      refine Ends.of_error (hfault fault _) (hleft.imp id fun h => ?_)
      exact ⟨rfl, ⟨fault, rfl⟩, h.2.2⟩
    | _ =>
      have hback := hleft.back nofun
      exact Ends.imp (hf _ _) (fun _ _ h => hback.trans h) fun _ _ h => h.after hback

theorem judgement_leaves : Judgement fun _ x => Leaves true x where
  toRules := rules_leaves
  onMachine := leaves_onMachine

/-- The step leaves the machine in the scope where it found it, unless it is given up for a
malformed tree. -/
def Returns {α : Type} (x : Step α) : Prop :=
  ∀ s, Ends x s (fun _ s' => s.machine.Back s'.machine) fun e s' =>
    (∀ fault, e ≠ .fault fault) → s.machine.Back s'.machine

theorem Leaves.returns {strands : Bool} {x : Step α} (h : Leaves strands x) : Returns x :=
  fun s => Ends.imp (h s) (fun _ _ h => h) fun _ _ h he =>
    h.back fun ⟨fault, hfault⟩ => he fault hfault

end Session

namespace Launch

open Session in
theorem leaves_prepare {strands : Bool} (launch : Launch) : Leaves strands launch.prepare :=
  rules_leaves.prepare launch

theorem leaves_step (launch : Launch) : Session.Leaves true launch.step :=
  Session.judgement_leaves.step launch

theorem returns_step (launch : Launch) : Session.Returns launch.step :=
  launch.leaves_step.returns

end Launch

/-- Each walk leaves any machine in the scope where it found it, over any tree, whether it gives a
result or stops, unless it stops at a malformed tree. So a run that begins in the globals ends in
them, and a session of sources is in its globals after each of them. -/
theorem scope_restored :
    (∀ (rounds room : Nat) (m : Machine),
      let back {α : Type} (x : Exec α) : Prop :=
        Ends x m (fun _ m' => m'.current = m.current) fun e m' =>
          (∀ fault, e ≠ .fault fault) → m'.current = m.current
      (∀ t, back (Exec.evaluate rounds room t)) ∧
      (∀ t, back (Exec.execute rounds room t)) ∧
      (∀ t scope, back (Exec.executeBlock rounds room t scope)) ∧
      ∀ callee arguments paren, back (Exec.call rounds room callee arguments paren)) ∧
    (∀ (launch : Launch) (s : Session), s.machine.current = s.machine.globals →
      Ends launch.step s (fun _ s' => s'.machine.current = s'.machine.globals) fun e s' =>
        (∀ fault, e ≠ .fault fault) → s'.machine.current = s'.machine.globals) ∧
    ∀ (detail : Nat) (clock : Clock) (acts : List Act),
      let s := (Session.start detail clock).after acts
      s.machine.current = s.machine.globals := by
  refine ⟨?_, ?_, ?_⟩
  · intro rounds room m back
    have hback {α : Type} {x : Exec α} (h : Exec.Returns x) : back x :=
      Ends.imp (h m) (fun _ _ h => h.current) fun _ _ h he => (h he).current
    obtain ⟨hevaluate, hexecute, hblock, hcall⟩ := Exec.returns_walks rounds room
    exact ⟨fun t => hback (hevaluate t), fun t => hback (hexecute t),
      fun t scope => hback (hblock t scope), fun v arguments paren => hback (hcall v arguments paren)⟩
  · intro launch s hs
    have hback {s' : Session} (h : s.machine.Back s'.machine) :
        s'.machine.current = s'.machine.globals :=
      h.current.trans (hs.trans h.globals.symm)
    exact Ends.imp (launch.returns_step s) (fun _ _ h => hback h) fun _ _ h he => hback (h he)
  · intro detail clock acts
    have h := ((InOrder.start detail clock).after acts).current
    rw [Observation.session_after] at h
    exact h

/-- An error in an initializer, called in the block of a subclass. -/
def failingInitializer : Launch :=
  .source "class A { init() { { this.x = nil - 1; } } } fun make() { class B < A {} return B(); } make();"

theorem scope_restored_initializer :
    (stateAfter failingInitializer.step (.start 0 (.still 0))).reporter.hadRuntimeError = true ∧
    Ends failingInitializer.step (.start 0 (.still 0))
      (fun _ s => s.machine.current = s.machine.globals) fun e s =>
        (∀ fault, e ≠ .fault fault) → s.machine.current = s.machine.globals :=
  ⟨by decide +kernel, scope_restored.2.1 failingInitializer (.start 0 (.still 0)) rfl⟩

end LoxLang
