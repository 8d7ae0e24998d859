import LoxLang.Proofs.Contexts
import LoxLang.Proofs.Outcome

/-!
# Open scopes

The resolver keeps a stack of open scopes and what each of them binds. A name that is read has to be
bound in the innermost scope that knows it, and to be ready there (`Ready`). The keywords `this` and
`super` stand in the scopes of the innermost class, one right inside the other (`Members`). A tree is
settled if its uses have the depths that the open scopes give them (`Settled`), and fine if it has
the right form as well (`Fine`).
-/

namespace LoxLang

theorem Tree.IsName.exists_key {t : Tree} (h : t.IsName) :
    ∃ s, t.asName = .ok (.ofText s) ∧ Token.Kind.ofWord s = .identifier := by
  obtain ⟨token, s, rfl, hs, hw⟩ := h
  refine ⟨s, ?_, hw⟩
  simp [Tree.asName, Tree.asToken, Tree.asToken?, Token.name, hs, Name.ofText, Json.str]

theorem Tree.IsWord.asName {word : String} {t : Tree} (h : t.IsWord word) :
    t.asName = .ok (.ofText word) := by
  obtain ⟨token, rfl, hs⟩ := h
  simp [Tree.asName, Tree.asToken, Tree.asToken?, Token.name, hs, Name.ofText, Json.str]

/-- An identifier is no keyword. -/
theorem ofText_beq_keyword {s : String} (hs : Token.Kind.ofWord s = .identifier) (word : String)
    (hw : Token.Kind.ofWord word ≠ .identifier) :
    (Name.ofText s == Name.ofText word) = false := by
  rw [Name.ofText_beq, beq_eq_false_iff_ne]
  rintro rfl
  exact hw hs

namespace Bindings

variable {κ α : Type} [BEq κ]

theorem binds_insert [PartialEquivBEq κ] (b : Bindings κ α) (key other : κ) (value : α) :
    (b.insert key value).binds other = (key == other || b.binds other) := by
  rw [binds, find?_insert]
  cases h : key == other <;> simp [binds]

theorem find?_single (key other : κ) (value : α) :
    (single key value).find? other = if key == other then some value else none := rfl

end Bindings

namespace Resolver

variable {scopes : List Frame} {key : Name} {name : Tree} {inClass : InClass}

/-! ## Open scopes -/

theorem depthOf?_cons (scope : Frame) (outer : List Frame) (key : Name) :
    depthOf? (scope :: outer) key =
      if scope.binds key then some 0 else (depthOf? outer key).map (· + 1) := by
  unfold depthOf?
  rw [List.findIdx?_cons]

theorem depthOf?_empty_cons (outer : List Frame) (key : Name) :
    depthOf? (.empty :: outer) key = (depthOf? outer key).map (· + 1) := by
  rw [depthOf?_cons]
  rfl

/-- The scope that a use leads to binds the name. -/
theorem exists_of_depthOf? {d : Nat} (h : depthOf? scopes key = some d) :
    ∃ scope ready, scopes[d]? = some scope ∧ scope.find? key = some ready := by
  obtain ⟨hd, hb, -⟩ := List.findIdx?_eq_some_iff_getElem.1 h
  obtain ⟨ready, hr⟩ := Option.isSome_iff_exists.1 hb
  exact ⟨scopes[d], ready, List.getElem?_eq_getElem hd, hr⟩

/-- Binding a name changes no other name. -/
theorem depthOf?_bindName (hname : name.asName = .ok key) {other : Name}
    (h : (key == other) = false) (scopes : List Frame) (ready : Bool) :
    depthOf? (bindName scopes name ready) other = depthOf? scopes other := by
  cases scopes with
  | nil => rfl
  | cons scope outer =>
    simp only [bindName, hname, depthOf?_cons, Bindings.binds_insert, h, Bool.false_or]

/-- The name is ready to be read in the scope a number of scopes out. -/
def Ready (scopes : List Frame) (depth : Nat) (key : Name) : Prop :=
  ∃ scope, scopes[depth]? = some scope ∧ scope.find? key = some true

theorem Ready.cons {depth : Nat} (h : Ready scopes depth key) (scope : Frame) :
    Ready (scope :: scopes) (depth + 1) key :=
  h

/-- A new name does not hide the others. -/
theorem Ready.bindName (hname : name.asName = .ok key) {other : Name} (h : (key == other) = false)
    {depth : Nat} (hr : Ready scopes depth other) (ready : Bool) :
    Ready (bindName scopes name ready) depth other := by
  obtain ⟨scope, hs, hf⟩ := hr
  cases scopes with
  | nil => simp at hs
  | cons first outer =>
    simp only [Resolver.bindName, hname]
    cases depth with
    | zero =>
      obtain rfl : first = scope := by simpa using hs
      exact ⟨_, rfl, by rw [Bindings.find?_insert_of_ne _ h, hf]⟩
    | succ depth => exact ⟨scope, hs, hf⟩

/-- All names of a scope are ready. -/
def Frame.AllReady (scope : Frame) : Prop :=
  ∀ key ready, scope.find? key = some ready → ready = true

/-- All names are ready. -/
def AllReady (scopes : List Frame) : Prop :=
  ∀ scope ∈ scopes, Frame.AllReady scope

/-- All names are ready, but maybe some of the innermost scope. -/
def OuterReady (scopes : List Frame) : Prop :=
  AllReady scopes.tail

theorem AllReady.outer (h : AllReady scopes) : OuterReady scopes :=
  fun scope hs => h scope (List.mem_of_mem_tail hs)

theorem AllReady.cons {scope : Frame} (hs : Frame.AllReady scope) (h : AllReady scopes) :
    AllReady (scope :: scopes) :=
  List.forall_mem_cons.2 ⟨hs, h⟩

theorem allReady_empty : Frame.AllReady .empty := nofun

theorem allReady_single (key : Name) : Frame.AllReady (.single key true) := by
  intro other ready h
  rw [Bindings.find?_single] at h
  split at h
  · exact (Option.some.inj h).symm
  · cases h

theorem OuterReady.bindName (h : AllReady scopes) (name : Tree) (ready : Bool) :
    OuterReady (bindName scopes name ready) := by
  unfold Resolver.bindName
  split
  · exact h.outer
  · exact h.outer

/-- A ready name keeps all names ready. -/
theorem AllReady.bindReady (h : AllReady scopes) (name : Tree) :
    AllReady (bindReady scopes name) := by
  unfold Resolver.bindReady Resolver.bindName
  cases scopes with
  | nil => simpa using h
  | cons scope outer =>
    obtain ⟨hs, ho⟩ := List.forall_mem_cons.1 h
    cases hname : name.asName with
    | error fault => exact h
    | ok key =>
      refine .cons (fun other ready hr => ?_) ho
      rw [Bindings.find?_insert] at hr
      split at hr
      · exact (Option.some.inj hr).symm
      · next hk =>
        rw [Bindings.find?_insert_of_ne _ (by simpa using hk)] at hr
        exact hs other ready hr

theorem AllReady.foldl_bindReady (h : AllReady scopes) {names : List Tree} :
    AllReady (names.foldl Resolver.bindReady scopes) :=
  List.foldlRecOn names _ h fun _ h name _ => h.bindReady name

theorem AllReady.afterStatement (h : AllReady scopes) (t : Tree) :
    AllReady (afterStatement scopes t) := by
  unfold Resolver.afterStatement
  split
  · exact h.bindReady _
  · exact h

/-! ## Classes -/

/-- The scopes of the innermost class are open, as many as the walk takes for granted. -/
def Members (scopes : List Frame) : InClass → Prop
  | .none => True
  | .root => ∃ d, depthOf? scopes (.ofText "this") = some d ∧ Ready scopes d (.ofText "this")
  | .subclass => ∃ d, depthOf? scopes (.ofText "this") = some d ∧
      Ready scopes d (.ofText "this") ∧ depthOf? scopes (.ofText "super") = some (d + 1) ∧
      Ready scopes (d + 1) (.ofText "super")

theorem Members.empty_cons (h : Members scopes inClass) : Members (.empty :: scopes) inClass := by
  cases inClass with
  | none => trivial
  | root =>
    obtain ⟨d, hd, hr⟩ := h
    exact ⟨d + 1, by rw [depthOf?_empty_cons, hd]; rfl, hr.cons _⟩
  | subclass =>
    obtain ⟨d, hd, hr, hd', hr'⟩ := h
    exact ⟨d + 1, by rw [depthOf?_empty_cons, hd]; rfl, hr.cons _,
      by rw [depthOf?_empty_cons, hd']; rfl, hr'.cons _⟩

/-- A name that is no keyword leaves `this` and `super` alone. -/
theorem Members.bindName (h : Members scopes inClass) (hname : name.IsName) (ready : Bool) :
    Members (bindName scopes name ready) inClass := by
  obtain ⟨s, hs, hw⟩ := hname.exists_key
  have hthis := ofText_beq_keyword hw "this" (by decide)
  have hsuper := ofText_beq_keyword hw "super" (by decide)
  cases inClass with
  | none => trivial
  | root =>
    obtain ⟨d, hd, hr⟩ := h
    exact ⟨d, by rw [depthOf?_bindName hs hthis, hd], hr.bindName hs hthis _⟩
  | subclass =>
    obtain ⟨d, hd, hr, hd', hr'⟩ := h
    exact ⟨d, by rw [depthOf?_bindName hs hthis, hd], hr.bindName hs hthis _,
      by rw [depthOf?_bindName hs hsuper, hd'], hr'.bindName hs hsuper _⟩

theorem Members.bindReady (h : Members scopes inClass) (hname : name.IsName) :
    Members (bindReady scopes name) inClass :=
  (h.bindName hname _).bindName hname _

theorem Members.foldl_bindReady (h : Members scopes inClass) {names : List Tree}
    (hnames : ∀ name ∈ names, name.IsName) :
    Members (names.foldl Resolver.bindReady scopes) inClass :=
  List.foldlRecOn (motive := (Members · inClass)) names _ h fun _ h name hname =>
    h.bindReady (hnames name hname)

/-- The kind of class that the methods of a class are in. -/
def classKind (parent : Tree) : InClass :=
  if parent.isNull then .root else .subclass

theorem members_aroundMethods (scopes : List Frame) (parent : Tree) :
    Members (aroundMethods scopes parent) (classKind parent) := by
  have hthis : thisFrame.find? (.ofText "this") = some true := by decide
  unfold aroundMethods classKind
  split
  · exact ⟨0, by rw [depthOf?_cons]; rfl, _, rfl, hthis⟩
  · exact ⟨0, by rw [depthOf?_cons]; rfl, ⟨_, rfl, hthis⟩, by
      rw [depthOf?_cons, if_neg (by decide), depthOf?_cons]; rfl, _, rfl, by decide⟩

/-! ## Settled trees -/

/-- The uses right at a tree have the depths that the open scopes give them. -/
def Settled (scopes : List Frame) : Tree → Prop
  | .ident name depth => ∀ key, name.asName = .ok key →
      depth = depthOf? scopes key ∧ ∀ d, depth = some d → Ready scopes d key
  | .assign name _ depth => ∀ key, name.asName = .ok key → depth = depthOf? scopes key
  | .thisRef _ depth => ∃ d, depth = some d ∧ depthOf? scopes (.ofText "this") = some d ∧
      Ready scopes d (.ofText "this")
  | .superRef _ _ depth => ∃ d, depth = some (d + 1) ∧
      depthOf? scopes (.ofText "super") = some (d + 1) ∧ Ready scopes (d + 1) (.ofText "super") ∧
      depthOf? scopes (.ofText "this") = some d ∧ Ready scopes d (.ofText "this")
  | .classDecl name (.ident parent _) _ => ∀ key other, name.asName = .ok key →
      parent.asName = .ok other → (key == other) = false
  | _ => True

/-- The tree has the right form, and its uses are settled. -/
structure Fine (c : Context) (t : Tree) : Prop where
  formed : Formed c.role t
  settled : Settled c.scopes t

/-! ## Scopes around a statement -/

theorem length_bindName (scopes : List Frame) (name : Tree) (ready : Bool) :
    (bindName scopes name ready).length = scopes.length := by
  unfold bindName
  split <;> rfl

theorem length_bindReady (scopes : List Frame) (name : Tree) :
    (bindReady scopes name).length = scopes.length := by
  unfold bindReady
  rw [length_bindName, length_bindName]

theorem tail_bindName (scopes : List Frame) (name : Tree) (ready : Bool) :
    (bindName scopes name ready).tail = scopes.tail := by
  unfold bindName
  split <;> rfl

theorem tail_bindReady (scopes : List Frame) (name : Tree) :
    (bindReady scopes name).tail = scopes.tail := by
  unfold bindReady
  rw [tail_bindName, tail_bindName]

theorem tail_afterStatement (scopes : List Frame) (t : Tree) :
    (afterStatement scopes t).tail = scopes.tail := by
  unfold afterStatement
  split
  · exact tail_bindReady _ _
  · rfl

/-- What is declared in a scope leaves the scopes around it alone. -/
theorem tail_foldl {f : List Frame → Tree → List Frame} (hf : ∀ S t, (f S t).tail = S.tail)
    (ts : List Tree) (S : List Frame) : (ts.foldl f S).tail = S.tail :=
  List.foldlRecOn (motive := fun S' => S'.tail = S.tail) ts f rfl fun S' h t _ => (hf S' t).trans h

/-- Outside of all scopes nothing is declared. -/
theorem foldl_afterStatement_nil (ts : List Tree) : ts.foldl afterStatement [] = [] := by
  induction ts with
  | nil => rfl
  | cons t ts ih =>
    have h : afterStatement [] t = [] := by
      unfold afterStatement
      split <;> rfl
    rw [List.foldl_cons, h, ih]

theorem afterStatement_of_none {t : Tree} (h : t.declared? = none) (scopes : List Frame) :
    afterStatement scopes t = scopes := by
  unfold afterStatement
  rw [h]

end Resolver

end LoxLang
