import LoxLang.Proofs.Grammar.Shapes
import LoxLang.Proofs.Scoping
import LoxLang.Proofs.Surroundings

/-!
# What the resolver writes and reports

The resolver is a walk that keeps the open scopes and the kind of function and class it is in. Its
result and its messages depend on the tree and on what is around the tree alone.

`written` gives the tree with its depths as a function of the open scopes. `Leads` says of a walk
where it comes to, what it gives and which messages it adds. `Stands` ties what the walk keeps to
the trees around it: the innermost function and class, and the name that is being initialized. Then
`reported_shaped` says of every tree that the parser gives that the walk adds just the messages of
`Tree.reports`, and `exists_program` says it of programs. The walk needs room in proportion to the
size of the tree, and where it has too little it says so.
-/

namespace LoxLang.Resolver

/-- The depth of the name in a slot. -/
def depthIn (scopes : List Frame) (name : Tree) : Option Nat :=
  match name.asName with
  | .ok key => depthOf? scopes key
  | .error _ => none

mutual

/-- A tree with the depths that it gets where the given scopes are open. -/
def written (scopes : List Frame) (inClass : InClass) : Tree → Tree
  | .unary operator right => .unary operator (written scopes inClass right)
  | .binary left operator right =>
    .binary (written scopes inClass left) operator (written scopes inClass right)
  | .logical left operator right =>
    .logical (written scopes inClass left) operator (written scopes inClass right)
  | .grouping e => .grouping (written scopes inClass e)
  | .ident name _ => .ident name (depthIn scopes name)
  | .assign name value _ => .assign name (written scopes inClass value) (depthIn scopes name)
  | .call callee paren (.list arguments) =>
    .call (written scopes inClass callee) paren (.list (writtenEach scopes inClass arguments))
  | .getField target name => .getField (written scopes inClass target) name
  | .setField target name value =>
    .setField (written scopes inClass target) name (written scopes inClass value)
  | .thisRef keyword _ =>
    .thisRef keyword (if inClass = .none then none else depthIn scopes keyword)
  | .superRef keyword method _ => .superRef keyword method (depthIn scopes keyword)
  | .exprStmt e => .exprStmt (written scopes inClass e)
  | .printStmt e => .printStmt (written scopes inClass e)
  | .varDecl name initializer =>
    .varDecl name (written (bindName scopes name false) inClass initializer)
  | .block (.list items) => .block (.list (writtenIn (.empty :: scopes) inClass items))
  | .ifElse condition thenBranch elseBranch =>
    .ifElse (written scopes inClass condition) (written scopes inClass thenBranch)
      (written scopes inClass elseBranch)
  | .whileLoop condition body =>
    .whileLoop (written scopes inClass condition) (written scopes inClass body)
  | .funDecl name (.list params) (.list items) =>
    .funDecl name (.list params)
      (.list (writtenIn (params.foldl bindReady (.empty :: bindReady scopes name)) inClass items))
  | .returnStmt keyword value => .returnStmt keyword (written scopes inClass value)
  | .classDecl name parent (.list methods) =>
    .classDecl name (written (bindReady scopes name) inClass parent)
      (.list (writtenMethods (aroundMethods (bindReady scopes name) parent) (classKind parent)
        methods))
  | t => t

/-- Statements one after the other, each with the names that those before it declare. -/
def writtenIn (scopes : List Frame) (inClass : InClass) : List Tree → List Tree
  | [] => []
  | t :: ts => written scopes inClass t :: writtenIn (afterStatement scopes t) inClass ts

/-- Expressions with the same scopes around each. -/
def writtenEach (scopes : List Frame) (inClass : InClass) : List Tree → List Tree
  | [] => []
  | t :: ts => written scopes inClass t :: writtenEach scopes inClass ts

/-- A method, whose name is not declared. -/
def writtenMethod (scopes : List Frame) (inClass : InClass) : Tree → Tree
  | .funDecl name (.list params) (.list items) =>
    .funDecl name (.list params)
      (.list (writtenIn (params.foldl bindReady (.empty :: scopes)) inClass items))
  | t => t

/-- Methods with the same scopes around each. -/
def writtenMethods (scopes : List Frame) (inClass : InClass) : List Tree → List Tree
  | [] => []
  | t :: ts => writtenMethod scopes inClass t :: writtenMethods scopes inClass ts

end

theorem isNull_written (S : List Frame) (k : InClass) (t : Tree) :
    (written S k t).isNull = t.isNull := by
  unfold written
  split <;> rfl

theorem declared?_written (S : List Frame) (k : InClass) (t : Tree) :
    (written S k t).declared? = t.declared? := by
  unfold written
  split <;> rfl

theorem writtenMethods_eq (scopes : List Frame) (inClass : InClass) (ts : List Tree) :
    writtenMethods scopes inClass ts = ts.map (writtenMethod scopes inClass) := by
  induction ts with
  | nil => rfl
  | cons t ts ih => rw [writtenMethods, ih, List.map_cons]

theorem writtenEach_eq (scopes : List Frame) (inClass : InClass) (ts : List Tree) :
    writtenEach scopes inClass ts = ts.map (written scopes inClass) := by
  induction ts with
  | nil => rfl
  | cons t ts ih => rw [writtenEach, ih, List.map_cons]

theorem getElem?_writtenIn : ∀ (ts : List Tree) (S : List Frame) (k : InClass) (j : Nat),
    (writtenIn S k ts)[j]? = ts[j]?.map (written ((ts.take j).foldl afterStatement S) k)
  | [], _, _, _ => rfl
  | _ :: _, _, _, 0 => rfl
  | t :: ts, S, k, j + 1 => getElem?_writtenIn ts (afterStatement S t) k j

/-! ## Where the walk is -/

/-- From where it is, the walk gives the result and comes to another place, with the given messages
on the way. Only going too deep can stop it, and only where `D` holds. Then it has come to some of
the messages. -/
def Leads (D : Prop) {α : Type} (x : Resolve α) (here : Standing) (a : α) (there : Standing)
    (ds : List Diagnostic) : Prop :=
  ∀ s : State, s.standing = here →
    Ends x s
      (fun b s' => b = a ∧ s'.standing = there ∧ s'.problems.toList = s.problems.toList ++ ds)
      fun e s' => e = .tooDeep ∧ D ∧
        ∃ ds', ds' <+: ds ∧ s'.problems.toList = s.problems.toList ++ ds'

section Leads

variable {D D' : Prop} {α β : Type} {x : Resolve α} {f : α → Resolve β} {a : α} {b : β}
  {here mid there : Standing} {ds ds' : List Diagnostic} {name : Tree} {key : Name}

theorem Leads.pure : Leads D (pure a) here a here [] :=
  fun _ hs => Ends.pure ⟨rfl, hs, (List.append_nil _).symm⟩

theorem Leads.tooDeep (h : D) : Leads D (throw .tooDeep) here a there ds :=
  fun _ _ => Ends.throw ⟨rfl, h, [], List.nil_prefix, (List.append_nil _).symm⟩

theorem Leads.mono (hx : Leads D x here a there ds) (h : D → D') : Leads D' x here a there ds :=
  fun s hs => (hx s hs).imp (fun _ _ h => h) fun _ _ ⟨he, hD, hp⟩ => ⟨he, h hD, hp⟩

/-- The messages of two steps, one after the other. -/
theorem Leads.bind (hx : Leads D x here a mid ds) (hf : Leads D (f a) mid b there ds') :
    Leads D (x >>= f) here b there (ds ++ ds') := by
  intro s hs
  refine Ends.bind ((hx s hs).imp (fun _ _ h => h) ?_) ?_
  · rintro _ s₁ ⟨rfl, hD, some₁, hsome, hp₁⟩
    exact ⟨rfl, hD, some₁, hsome.trans (List.prefix_append _ _), hp₁⟩
  rintro _ s₁ ⟨rfl, hs₁, hp₁⟩
  refine (hf s₁ hs₁).imp ?_ ?_
  · rintro _ s₂ ⟨rfl, hs₂, hp₂⟩
    exact ⟨rfl, hs₂, by rw [hp₂, hp₁, List.append_assoc]⟩
  · rintro _ s₂ ⟨rfl, hD, some₂, hsome, hp₂⟩
    refine ⟨rfl, hD, ds ++ some₂, (List.prefix_append_right_inj ds).2 hsome, ?_⟩
    rw [hp₂, hp₁, List.append_assoc]

/-- A step without a message. -/
theorem Leads.step (hx : Leads D x here a mid []) (hf : Leads D (f a) mid b there ds) :
    Leads D (x >>= f) here b there ds :=
  hx.bind hf

/-- A step after which there are no more messages. -/
theorem Leads.last (hx : Leads D x here a mid ds) (hf : Leads D (f a) mid b there []) :
    Leads D (x >>= f) here b there ds := by
  have h := hx.bind hf
  rwa [List.append_nil] at h

/-- A step on a condition. -/
theorem Leads.condition {c : Bool} {y : Resolve Unit} {f : Unit → Resolve β}
    (hy : Leads D (if c then y else Pure.pure ()) here () mid ds)
    (hf : Leads D (f ()) mid b there ds') :
    Leads D (if c then y >>= f else f ()) here b there (ds ++ ds') := by
  cases c with
  | true => exact Leads.bind hy hf
  | false => exact Leads.bind hy hf

theorem Leads.get {f : State → Resolve β}
    (h : ∀ s, s.standing = here → Leads D (f s) here b there ds) :
    Leads D (get >>= f) here b there ds :=
  fun s hs => h s hs s hs

theorem Leads.lift {r : Except Fault α} (hr : r = .ok a) (h : Leads D (f a) here b there ds) :
    Leads D (lift r >>= f) here b there ds := by
  subst hr
  exact h

theorem leads_openScope (frame : Frame) :
    Leads D (openScope frame) here () { here with scopes := frame :: here.scopes } [] := by
  rintro s rfl
  exact ends_modify ⟨rfl, rfl, (List.append_nil _).symm⟩

theorem leads_closeScope :
    Leads D closeScope here () { here with scopes := here.scopes.tail } [] := by
  rintro s rfl
  exact ends_modify ⟨rfl, rfl, (List.append_nil _).symm⟩

theorem leads_inClass (k : InClass) :
    Leads D (modify fun s => { s with inClass := k }) here () { here with inClass := k } [] := by
  rintro s rfl
  exact ends_modify ⟨rfl, rfl, (List.append_nil _).symm⟩

theorem leads_inFunction (k : InFunction) :
    Leads D (modify fun s => { s with inFunction := k }) here ()
      { here with inFunction := k } [] := by
  rintro s rfl
  exact ends_modify ⟨rfl, rfl, (List.append_nil _).symm⟩

/-- A declaration has no message. -/
theorem leads_declare (hkey : name.asName = .ok key) (ready : Bool) :
    Leads D (declare name ready) here ()
      { here with scopes := bindName here.scopes name ready } [] := by
  refine .get fun s hs => ?_
  cases hs
  cases hscopes : s.scopes with
  | nil =>
    have hsame : ({ s.standing with scopes := bindName s.standing.scopes name ready } : Standing) =
        s.standing := by
      simp [State.standing, hscopes, bindName]
    rw [hsame]
    exact .pure
  | cons scope outer =>
    refine .lift hkey fun s' hs' => ends_modify ⟨rfl, ?_, (List.append_nil _).symm⟩
    have hk : s'.inFunction = s.inFunction ∧ s'.inClass = s.inClass :=
      ⟨congrArg Standing.inFunction hs', congrArg Standing.inClass hs'⟩
    simp [State.standing, hscopes, bindName, hkey, hk]

/-- A name is declared, and it is ready to be read. -/
theorem leads_declareTwice (hkey : name.asName = .ok key) {f : Unit → Resolve β}
    (h : Leads D (f ()) { here with scopes := bindReady here.scopes name } b there ds) :
    Leads D (declare name false >>= fun _ => declare name true >>= f) here b there ds :=
  (leads_declare hkey false).step ((leads_declare hkey true).step h)

/-- The depth of a name is the one that is written. -/
theorem leads_locate (hkey : name.asName = .ok key) :
    Leads D (locate name) here (depthIn here.scopes name) here [] := by
  refine .get fun s hs => ?_
  subst hs
  have hdepth : depthIn s.standing.scopes name = depthOf? s.scopes key := by
    simp [depthIn, hkey, State.standing]
  rw [hdepth]
  dsimp only
  split
  · next he =>
    rw [List.isEmpty_iff.1 he]
    exact .pure
  · refine .lift hkey ?_
    split
    · next hd =>
      rw [hd]
      exact .pure
    · next depth hd =>
      rw [hd]
      have hfound : Leads D (modify fun s => { s with found := s.found + 1 }) s.standing ()
          s.standing [] :=
        fun _ hs' => ends_modify ⟨rfl, hs', (List.append_nil _).symm⟩
      exact hfound.step .pure

theorem leads_report {slot : Tree} {t : Token} (ht : slot = .token t) (problem : Problem) :
    Leads D (report slot problem) here () here (slot.problem problem) := by
  subst ht
  refine .lift rfl fun s hs => ends_modify ⟨rfl, hs, ?_⟩
  simp [Tree.problem]

/-- A report on a condition. -/
theorem leads_reportIf {slot : Tree} {t : Token} (ht : slot = .token t) (c : Bool)
    (problem : Problem) :
    Leads D (if c then report slot problem else Pure.pure ()) here () here
      (if c then slot.problem problem else []) := by
  cases c with
  | true => exact leads_report ht problem
  | false => exact .pure

end Leads

/-! ## What is around the walk -/

/-- The kind of function that a place is in. -/
def functionKind (above : Surroundings) : InFunction :=
  match above.innermost? Tree.isFunction with
  | none => .none
  | some (f, outer) =>
    if Surroundings.isInitializer f outer then .initializer
    else if outer.isMember then .method else .function

/-- The kind of class that a place is in. -/
def classKindAt (above : Surroundings) : InClass :=
  match above.innermost? Tree.isClass with
  | none => .none
  | some (c, _) => if c.inherits then .subclass else .root

/-- The name is bound in the innermost scope and not ready. -/
def Unready (scopes : List Frame) (key : Name) : Prop :=
  ∃ scope ∈ scopes.head?, scope.find? key = some false

/-- What the walk knows is what is around it. -/
structure Stands (above : Surroundings) (here : Standing) : Prop where
  inFunction : here.inFunction = functionKind above
  inClass : here.inClass = classKindAt above
  isLocal : here.scopes.isEmpty = !above.isLocal
  unready : ∀ {name : Tree} {key : Name}, name.asName = .ok key →
    (Unready here.scopes key ↔ above.initializes name = true)

/-- The same before a statement that is no method: all names are ready. -/
structure StandsOpen (above : Surroundings) (here : Standing) : Prop extends Stands above here where
  ready : AllReady here.scopes
  outside : above.innermost? Tree.isVariable = none
  member : above.isMember = false

/-- The tree tells nothing about what is in the slot. -/
def Plain (t : Tree) (i : Nat) : Prop :=
  t.isFunction = false ∧ t.isClass = false ∧ t.isVariable = false ∧ t.opens i = []

section Stands

variable {D : Prop} {above : Surroundings} {here : Standing} {t : Tree} {i : Nat}

theorem isLocal_cons (above : Surroundings) (t : Tree) (i : Nat) :
    Surroundings.isLocal ((t, i) :: above) = (!(t.opens i).isEmpty || above.isLocal) := rfl

theorem innermost?_cons (pick : Tree → Bool) (above : Surroundings) (t : Tree) (i : Nat) :
    Surroundings.innermost? pick ((t, i) :: above) =
      if pick t then some (t, above) else above.innermost? pick := rfl

/-- What is around a plain tree is around what it holds. -/
theorem Stands.inside (h : Stands above here) (ht : Plain t i) : Stands ((t, i) :: above) here := by
  obtain ⟨hf, hc, hv, ho⟩ := ht
  refine ⟨?_, ?_, ?_, fun hkey => ?_⟩
  · rw [h.inFunction]
    simp [functionKind, innermost?_cons, hf]
  · rw [h.inClass]
    simp [classKindAt, innermost?_cons, hc]
  · rw [h.isLocal]
    simp [isLocal_cons, ho]
  · rw [h.unready hkey]
    simp [Surroundings.initializes, innermost?_cons, hv]

theorem AllReady.not_unready {scopes : List Frame} (h : AllReady scopes) (key : Name) :
    ¬Unready scopes key := by
  rintro ⟨scope, hs, hf⟩
  exact absurd (h scope (List.mem_of_mem_head? hs) key false hf) nofun

theorem StandsOpen.inside (h : StandsOpen above here) (ht : Plain t i)
    (hm : Surroundings.isMember ((t, i) :: above) = false) : StandsOpen ((t, i) :: above) here where
  toStands := h.toStands.inside ht
  ready := h.ready
  outside := by
    rw [innermost?_cons, ht.2.2.1]
    exact h.outside
  member := hm

theorem initializes_of_outside (h : above.innermost? Tree.isVariable = none) (name : Tree) :
    above.initializes name = false := by
  unfold Surroundings.initializes
  rw [h]

theorem isEmpty_bindName (scopes : List Frame) (name : Tree) (ready : Bool) :
    (bindName scopes name ready).isEmpty = scopes.isEmpty := by
  unfold bindName
  split <;> rfl

theorem isEmpty_bindReady (scopes : List Frame) (name : Tree) :
    (bindReady scopes name).isEmpty = scopes.isEmpty := by
  unfold bindReady
  rw [isEmpty_bindName, isEmpty_bindName]

/-- Where all names are ready and no variable is initialized. -/
theorem StandsOpen.of_ready (hf : here.inFunction = functionKind above)
    (hc : here.inClass = classKindAt above) (hl : here.scopes.isEmpty = !above.isLocal)
    (hready : AllReady here.scopes) (houtside : above.innermost? Tree.isVariable = none)
    (hm : above.isMember = false) : StandsOpen above here where
  inFunction := hf
  inClass := hc
  isLocal := hl
  unready {name key} _ := by
    rw [initializes_of_outside houtside name]
    exact iff_of_false (hready.not_unready key) nofun
  ready := hready
  outside := houtside
  member := hm

/-- With other scopes, as many and ready, the walk stands where it did. -/
theorem StandsOpen.move (h : StandsOpen above here) {scopes : List Frame}
    (hready : AllReady scopes) (hs : scopes.isEmpty = here.scopes.isEmpty) :
    StandsOpen above { here with scopes } :=
  .of_ready h.inFunction h.inClass (hs.trans h.isLocal) hready h.outside h.member

theorem StandsOpen.afterStatement (h : StandsOpen above here) (t : Tree) :
    StandsOpen above { here with scopes := afterStatement here.scopes t } := by
  refine h.move (h.ready.afterStatement t) ?_
  unfold Resolver.afterStatement
  split
  · exact isEmpty_bindReady _ _
  · rfl

/-- A name that is read in its own initializer is reported. -/
theorem leads_checkReady {name : Tree} {token : Token} {key : Name} (ht : name = .token token)
    (hkey : name.asName = .ok key) (h : Stands above here) :
    Leads D (checkReady name) here () here
      (if above.initializes name then name.problem .ownInitializer else []) := by
  refine .get fun s hs => ?_
  have hready := h.unready hkey
  cases hs
  cases hscopes : s.scopes with
  | nil =>
    have hnot : above.initializes name = false := by
      rw [← Bool.not_eq_true, ← hready]
      rintro ⟨scope, hmem, -⟩
      simp [State.standing, hscopes] at hmem
    rw [hnot]
    exact .pure
  | cons scope outer =>
    have hiff : scope.find? key = some false ↔ above.initializes name = true := by
      rw [← hready]
      simp [Unready, State.standing, hscopes]
    refine .lift hkey ?_
    by_cases hf : scope.find? key = some false
    · rw [if_pos hf, if_pos (hiff.1 hf)]
      exact leads_report ht _
    · rw [if_neg hf, if_neg (mt hiff.2 hf)]
      exact .pure

end Stands

/-! ## Expressions -/

open LoxLang.Parser (Shaped Holds)

/-- Tokens that stand for names. -/
def Named (K : Token → Prop) : Prop :=
  ∀ a, K a → ∃ key, a.name = .ok key

variable {v keyword c : Tree} {q : Surroundings} {ds : List Diagnostic} {room : Nat}

section Expressions

variable {D : Prop} {K : Token → Prop} {above : Surroundings} {here : Standing} {t u : Tree}
  {p : Surroundings}

theorem Named.slot (hK : Named K) {kinds : List Token.Kind} {slot : Tree}
    (h : Holds K kinds slot) : ∃ a key, slot = .token a ∧ slot.asName = .ok key := by
  obtain ⟨a, rfl, ha, -⟩ := h
  obtain ⟨key, hkey⟩ := hK a ha
  exact ⟨a, key, rfl, hkey⟩

/-- The messages of a list from number `i` on. -/
def reportsFrom (place : Nat → Surroundings) (i : Nat) (ts : List Tree) : List Diagnostic :=
  (Tree.visitsFrom place i ts).flatMap fun visit => visit.1.violations visit.2

theorem reportsFrom_cons (place : Nat → Surroundings) (i : Nat) (t : Tree) (ts : List Tree) :
    reportsFrom place i (t :: ts) = t.reports (place i) ++ reportsFrom place (i + 1) ts := by
  simp only [reportsFrom, Tree.visitsFrom, List.flatMap_append, Tree.reports]

theorem reports_list (above : Surroundings) (items : List Tree) :
    (Tree.list items).reports above = reportsFrom (fun i => (.list items, i) :: above) 0 items := by
  simp only [Tree.reports, Tree.visits, List.flatMap_cons, Surroundings.violations, List.nil_append,
    reportsFrom]

/-! The messages of a tree are its own, and then those of the trees in its slots. -/

theorem reports_none (h : t.visits above = [(above, t)]) :
    t.reports above = above.violations t := by
  simp only [Tree.reports, h, List.flatMap_cons, List.flatMap_nil, List.append_nil]

theorem reports_one (h : t.visits above = (above, t) :: u.visits p) :
    t.reports above = above.violations t ++ u.reports p := by
  simp only [Tree.reports, h, List.flatMap_cons]

theorem reports_two (h : t.visits above = (above, t) :: (u.visits p ++ v.visits q)) :
    t.reports above = above.violations t ++ (u.reports p ++ v.reports q) := by
  simp only [Tree.reports, h, List.flatMap_cons, List.flatMap_append]

theorem reports_three {w : Tree} {r : Surroundings}
    (h : t.visits above = (above, t) :: (u.visits p ++ v.visits q ++ w.visits r)) :
    t.reports above = above.violations t ++ (u.reports p ++ v.reports q ++ w.reports r) := by
  simp only [Tree.reports, h, List.flatMap_cons, List.flatMap_append]

/-! The room that a walk needs is bounded by the size of the tree. -/

theorem sizeOf_pos (t : Tree) : 0 < sizeOf t := by
  cases t <;> simp [Nat.pos_iff_ne_zero]

/-- A part is smaller than its tree. -/
theorem sizeOf_child {i : Nat} (h : t.children[i]? = some u) : sizeOf u < sizeOf t := by
  have hmem := List.mem_of_getElem? h
  cases t with
  | list items =>
    have : sizeOf u < sizeOf items := List.sizeOf_lt_of_mem hmem
    rw [Tree.list.sizeOf_spec]
    omega
  | scalar | token | object => cases hmem
  | _ =>
    simp only [Tree.children, List.mem_cons, List.not_mem_nil, or_false] at hmem
    simp
    grind

/-- A slot needs less room than the tree. -/
theorem Leads.deeper {α : Type} {x : Resolve α} {a : α} {there : Standing} {n : Nat}
    (h : Leads (room < 4 * sizeOf u) x here a there ds) (i : Nat) (hu : t.children[i]? = some u)
    (hn : n ≤ 4) : Leads (room + n < 4 * sizeOf t) x here a there ds := by
  have := sizeOf_child hu
  exact h.mono fun hroom => by omega

/-- The expression gets its depths, and what is wrong with it is reported. -/
def ReportsExpression (t : Tree) : Prop :=
  ∀ (room : Nat) (above : Surroundings) (here : Standing), Stands above here →
    Leads (room < 4 * sizeOf t) (expression room t) here (written here.scopes here.inClass t) here
      (t.reports above)

/-- Trees that are walked one after the other, from the same place. -/
theorem leads_eachFrom {walk : Tree → Resolve Tree} {g : Tree → Tree}
    {place : Nat → Surroundings} : ∀ (ts : List Tree) (i : Nat) (done : List Tree),
      (∀ t ∈ ts, ∀ j, Leads D (walk t) here (g t) here (t.reports (place j))) →
      Leads D (eachFrom walk done ts) here (done.reverse ++ ts.map g) here (reportsFrom place i ts)
  | [], _, done, _ => by
    rw [List.map_nil, List.append_nil]
    exact .pure
  | t :: ts, i, done, h => by
    obtain ⟨ht, hrest⟩ := List.forall_mem_cons.1 h
    have hmore := leads_eachFrom ts (i + 1) (g t :: done) hrest
    rw [List.reverse_cons, List.append_assoc] at hmore
    rw [reportsFrom_cons]
    exact (ht i).bind hmore

theorem leads_eachOf {walk : Tree → Resolve Tree} {g : Tree → Tree} {ts : List Tree}
    (h : ∀ t ∈ ts, ∀ j, Leads D (walk t) here (g t) here (t.reports ((.list ts, j) :: above))) :
    Leads D (eachOf walk (.list ts)) here (.list (ts.map g)) here
      ((Tree.list ts).reports above) := by
  rw [reports_list]
  exact .lift rfl ((leads_eachFrom ts 0 [] h).last .pure)

/-- The slots of an expression are walked from where it stands. -/
theorem ReportsExpression.slot (h : ReportsExpression u) (room : Nat) (hs : Stands above here)
    {i : Nat} (ht : Plain t i) (hu : t.children[i]? = some u) :
    Leads (room + 1 < 4 * sizeOf t) (expression room u) here (written here.scopes here.inClass u)
      here (u.reports ((t, i) :: above)) :=
  (h room _ here (hs.inside ht)).deeper i hu (by decide)

/-- A `super` is reported where it violates a rule. -/
theorem leads_checkSuper {token : Token} (ht : keyword = .token token) (h : Stands above here)
    {method : Tree} {depth : Option Nat} :
    Leads D (checkSuper keyword) here () here
      (above.violations (.superRef keyword method depth)) := by
  refine .get fun s hs => ?_
  have hk : s.inClass = classKindAt above := by
    rw [← h.inClass, ← hs]
    rfl
  rw [hk]
  unfold classKindAt Surroundings.violations
  cases above.innermost? Tree.isClass with
  | none => exact leads_report ht _
  | some c =>
    dsimp only
    cases c.1.inherits with
    | true => exact .pure
    | false => exact leads_report ht _

/-- Without room the walk goes too deep. -/
theorem ReportsExpression.of_succ
    (h : ∀ (room : Nat) (above : Surroundings) (here : Standing), Stands above here →
      Leads (room + 1 < 4 * sizeOf t) (expression (room + 1) t) here
        (written here.scopes here.inClass t) here (t.reports above)) : ReportsExpression t := by
  intro room above here hs
  cases room with
  | zero => exact .tooDeep (by have := sizeOf_pos t; omega)
  | succ room => exact h room above here hs

/-- An expression that the parser builds is written and reported. -/
theorem reportsExpression_of_shaped (hK : Named K) (h : Shaped K .expression t) :
    ReportsExpression t := by
  generalize hpart : Parser.Part.expression = part at h
  induction h with
  | literal | always => exact .of_succ fun room above here hs => .pure
  | grouping _ ih | unary _ _ ih | getField _ _ ih =>
    refine .of_succ fun room above here hs => ?_
    rw [reports_one rfl]
    exact ((ih rfl).slot room hs ⟨rfl, rfl, rfl, rfl⟩ rfl).last .pure
  | binary _ _ _ ihl ihr | logical _ _ _ ihl ihr | setField _ _ _ ihr ihl =>
    refine .of_succ fun room above here hs => ?_
    rw [reports_two rfl]
    refine ((ihl rfl).slot room hs ⟨rfl, rfl, rfl, rfl⟩ rfl).bind ?_
    exact ((ihr rfl).slot room hs ⟨rfl, rfl, rfl, rfl⟩ rfl).last .pure
  | ident hn =>
    obtain ⟨token, key, htoken, hkey⟩ := hK.slot hn
    refine .of_succ fun room above here hs => ?_
    rw [reports_none rfl]
    exact (leads_checkReady htoken hkey hs).last ((leads_locate hkey).step .pure)
  | assign hn _ ih =>
    obtain ⟨token, key, htoken, hkey⟩ := hK.slot hn
    refine .of_succ fun room above here hs => ?_
    rw [reports_one rfl]
    refine ((ih rfl).slot room hs ⟨rfl, rfl, rfl, rfl⟩ rfl).last ?_
    exact (leads_locate hkey).step .pure
  | @call callee paren arguments _ _ _ ihc iha =>
    refine .of_succ fun room above here hs => ?_
    rw [reports_two rfl]
    refine ((ihc rfl).slot room hs ⟨rfl, rfl, rfl, rfl⟩ rfl).bind ?_
    have hlist : Leads (room + 1 < 4 * sizeOf (Tree.call callee paren (.list arguments)))
        (eachOf (expression room) (.list arguments)) here
        (.list (arguments.map (written here.scopes here.inClass))) here
        ((Tree.list arguments).reports ((.call callee paren (.list arguments), 2) :: above)) := by
      refine leads_eachOf fun t ht j => ?_
      have hin : Stands ((.call callee paren (.list arguments), 2) :: above) here :=
        hs.inside ⟨rfl, rfl, rfl, rfl⟩
      refine (iha t ht rfl room _ here (hin.inside ⟨rfl, rfl, rfl, rfl⟩)).mono fun hroom => ?_
      have := List.sizeOf_lt_of_mem ht
      simp only [Tree.call.sizeOf_spec, Tree.list.sizeOf_spec]
      omega
    rw [← writtenEach_eq] at hlist
    exact hlist.last .pure
  | thisRef hk =>
    obtain ⟨token, key, htoken, hkey⟩ := hK.slot hk
    refine .of_succ fun room above here hs => ?_
    rw [reports_none rfl]
    refine .get fun s hstand => ?_
    have hin : s.inClass = here.inClass := by
      rw [← hstand]
      rfl
    rw [hin]
    have hkind := hs.inClass
    unfold classKindAt at hkind
    unfold written Surroundings.violations
    cases hc : above.innermost? Tree.isClass with
    | none =>
      rw [hc] at hkind
      rw [if_pos hkind, if_pos hkind]
      exact (leads_report htoken _).last .pure
    | some c =>
      rw [hc] at hkind
      have hne : here.inClass ≠ .none := by
        rw [hkind]
        dsimp only
        split <;> exact nofun
      rw [if_neg hne, if_neg hne]
      exact (leads_locate hkey).step .pure
  | superRef hk _ =>
    obtain ⟨token, key, htoken, hkey⟩ := hK.slot hk
    refine .of_succ fun room above here hs => ?_
    rw [reports_none rfl]
    exact (leads_checkSuper htoken hs).last ((leads_locate hkey).step .pure)
  | _ => cases hpart

end Expressions

/-! ## Statements -/

/-- The statement gets its depths, what is wrong with it is reported, and it leaves its name
declared. -/
def ReportsStatement (walk : Nat → Tree → Resolve Tree) (t : Tree) : Prop :=
  ∀ (room : Nat) (above : Surroundings) (here : Standing), StandsOpen above here →
    Leads (room < 4 * sizeOf t) (walk room t) here (written here.scopes here.inClass t)
      { here with scopes := afterStatement here.scopes t } (t.reports above)

/-- An entry of a list of statements, which may be null. -/
abbrev ReportsEntry (t : Tree) : Prop :=
  ReportsStatement (fun room => optional (statement room)) t

/-- The method gets its depths, and what is wrong with it is reported. -/
def ReportsMethod (t : Tree) : Prop :=
  ∀ (room : Nat) (above : Surroundings) (here : Standing), here.inClass = classKindAt above →
    AllReady here.scopes → above.innermost? Tree.isVariable = none →
    Leads (room + 1 < 4 * sizeOf t) (routineRule room (functionKind ((t, 2) :: above)) t) here
      (writtenMethod here.scopes here.inClass t) here (t.reports above)

section Statements

variable {D : Prop} {K : Token → Prop} {above : Surroundings} {here : Standing} {room : Nat}
  {items methods params : List Tree} {e name parent t : Tree} {token : Token} {key : Name}

theorem isEmpty_foldl {f : List Frame → Tree → List Frame}
    (hf : ∀ S t, (f S t).isEmpty = S.isEmpty) (ts : List Tree) :
    ∀ S, (ts.foldl f S).isEmpty = S.isEmpty := by
  induction ts with
  | nil => exact fun _ => rfl
  | cons t ts ih => exact fun S => (ih _).trans (hf S t)

/-- Statements one after the other. -/
theorem leads_entries {place : Nat → Surroundings} : ∀ (ts : List Tree) (i : Nat) (done : List Tree)
    (here : Standing), (∀ t ∈ ts, ReportsEntry t) → (∀ j, StandsOpen (place j) here) →
      (∀ t ∈ ts, room < 4 * sizeOf t → D) →
      Leads D (eachFrom (optional (statement room)) done ts) here
        (done.reverse ++ writtenIn here.scopes here.inClass ts)
        { here with scopes := ts.foldl afterStatement here.scopes } (reportsFrom place i ts)
  | [], _, done, here, _, _, _ => by
    rw [writtenIn, List.append_nil]
    exact .pure
  | t :: ts, i, done, here, h, hs, hD => by
    obtain ⟨ht, hrest⟩ := List.forall_mem_cons.1 h
    obtain ⟨hdeep, hdeeper⟩ := List.forall_mem_cons.1 hD
    have hmore := leads_entries ts (i + 1) (written here.scopes here.inClass t :: done) _ hrest
      (fun j => (hs j).afterStatement t) hdeeper
    rw [List.reverse_cons, List.append_assoc] at hmore
    rw [reportsFrom_cons]
    exact ((ht room _ here (hs i)).mono hdeep).bind hmore

/-- A list of statements that is no list of methods. -/
theorem leads_body (h : ∀ t ∈ items, ReportsEntry t)
    (hs : ∀ j, StandsOpen ((.list items, j) :: above) here) :
    Leads (room < 4 * sizeOf (Tree.list items)) (body room (.list items)) here
      (.list (writtenIn here.scopes here.inClass items))
      { here with scopes := items.foldl afterStatement here.scopes }
      ((Tree.list items).reports above) := by
  cases room with
  | zero =>
    unfold body
    exact .tooDeep (by have := sizeOf_pos (.list items); omega)
  | succ room =>
    unfold body
    rw [reports_list]
    refine .lift rfl ((leads_entries items 0 [] here h hs fun t ht hroom => ?_).last .pure)
    have := List.sizeOf_lt_of_mem ht
    rw [Tree.list.sizeOf_spec]
    omega

/-- Parameters are declared without a message. -/
theorem leads_declareAll {names : List Tree} :
    ∀ {here : Standing}, (∀ name ∈ names, ∃ key, name.asName = .ok key) →
      Leads D (declareAll names) here () { here with scopes := names.foldl bindReady here.scopes }
        [] := by
  induction names with
  | nil => exact fun _ => .pure
  | cons name names ih =>
    intro here h
    obtain ⟨⟨key, hkey⟩, hrest⟩ := List.forall_mem_cons.1 h
    exact leads_declareTwice hkey (ih hrest)

/-- A walk in a function comes back to the kind around. -/
theorem Leads.within {α : Type} {kind : InFunction} {x : Resolve α} {a : α} {ds : List Diagnostic}
    (h : Leads D x { here with inFunction := kind } a { here with inFunction := kind } ds) :
    Leads D (within kind x) here a here ds := by
  refine .get fun s hs => ?_
  have hbefore : s.inFunction = here.inFunction := by
    rw [← hs]
    rfl
  dsimp only
  rw [hbefore]
  exact (leads_inFunction kind).step (h.last ((leads_inFunction here.inFunction).step .pure))

/-- A function is walked in a scope of its own, with its parameters. -/
theorem standsOpen_routine {S : List Frame} {k : InClass} (hclass : k = classKindAt above)
    (hready : AllReady S) (hvariable : above.innermost? Tree.isVariable = none) {j : Nat} :
    StandsOpen ((.list items, j) :: (.funDecl name (.list params) (.list items), 2) :: above)
      ⟨params.foldl bindReady (.empty :: S),
        functionKind ((.funDecl name (.list params) (.list items), 2) :: above), k⟩ :=
  .of_ready rfl hclass (isEmpty_foldl isEmpty_bindReady params _)
    (AllReady.cons allReady_empty hready).foldl_bindReady hvariable rfl

/-- A method is written and reported if its statements are. -/
theorem reportsMethod_funDecl (hparams : ∀ p ∈ params, ∃ key, p.asName = .ok key)
    (h : ∀ t ∈ items, ReportsEntry t) :
    ReportsMethod (.funDecl name (.list params) (.list items)) := by
  intro room above here hclass hready hvariable
  cases room with
  | zero =>
    unfold routineRule
    refine .tooDeep ?_
    have := sizeOf_pos (.funDecl name (.list params) (.list items))
    omega
  | succ room =>
    unfold routineRule
    rw [reports_one rfl]
    refine .within ?_
    refine (leads_openScope .empty).step
      (.lift rfl (.lift rfl ((leads_declareAll hparams).step ?_)))
    refine ((leads_body h fun j => ?_).mono fun hroom => ?_).last (leads_closeScope.step ?_)
    · exact standsOpen_routine hclass hready hvariable
    · rw [Tree.funDecl.sizeOf_spec]
      omega
    · have hclosed : ((items.foldl afterStatement
          (params.foldl bindReady (.empty :: here.scopes)))).tail = here.scopes := by
        rw [tail_foldl tail_afterStatement, tail_foldl tail_bindReady]
        rfl
      dsimp only
      rw [hclosed]
      exact .pure

/-- Without room a statement goes too deep. -/
theorem ReportsStatement.of_succ
    (h : ∀ (room : Nat) (above : Surroundings) (here : Standing), StandsOpen above here →
      Leads (room + 1 < 4 * sizeOf t) (statement (room + 1) t) here
        (written here.scopes here.inClass t)
        { here with scopes := afterStatement here.scopes t } (t.reports above)) :
    ReportsStatement statement t := by
  intro room above here hs
  cases room with
  | zero =>
    unfold statement
    exact .tooDeep (by have := sizeOf_pos t; omega)
  | succ room => exact h room above here hs

/-- A statement that is not null is an entry. -/
theorem ReportsStatement.entry (h : ReportsStatement statement t) (ht : t.isNull = false) :
    ReportsEntry t := by
  intro room above here hs
  dsimp only [optional]
  rw [ht]
  exact h room above here hs

theorem reportsEntry_null : ReportsEntry .null :=
  fun _ _ _ _ => .pure

/-- What a slot holds that may hold an expression. -/
def ReportsOptional (t : Tree) : Prop :=
  t = .null ∨ t.isNull = false ∧ ReportsExpression t

theorem ReportsOptional.leads (h : ReportsOptional t) (hs : Stands above here) :
    Leads (room < 4 * sizeOf t) (optional (expression room) t) here
      (written here.scopes here.inClass t) here (t.reports above) := by
  obtain rfl | ⟨hn, h⟩ := h
  · exact .pure
  · unfold optional
    rw [hn]
    exact h room above here hs

/-- A `return` is reported where it violates a rule. -/
theorem leads_checkReturn {value : Tree} (ht : keyword = .token token) (h : Stands above here) :
    Leads D (checkReturn keyword value) here () here
      (above.violations (.returnStmt keyword value)) := by
  refine .get fun s hs => ?_
  have hk : s.inFunction = functionKind above := by
    rw [← h.inFunction, ← hs]
    rfl
  rw [hk]
  unfold functionKind Surroundings.violations
  cases above.innermost? Tree.isFunction with
  | none => exact leads_report ht _
  | some f =>
    dsimp only
    cases Surroundings.isInitializer f.1 f.2 with
    | true => exact leads_reportIf ht _ _
    | false =>
      cases f.2.isMember with
      | true => exact .pure
      | false => exact .pure

theorem standsOpen_block (hs : StandsOpen above here) {j : Nat} :
    StandsOpen ((.list items, j) :: (.block (.list items), 0) :: above)
      { here with scopes := .empty :: here.scopes } :=
  .of_ready hs.inFunction hs.inClass rfl (.cons allReady_empty hs.ready) hs.outside rfl

/-- A block is written and reported with its statements. -/
theorem reportsStatement_block (h : ∀ t ∈ items, ReportsEntry t) :
    ReportsStatement statement (.block (.list items)) := by
  refine .of_succ fun room above here hs => ?_
  unfold statement
  rw [reports_one rfl]
  refine (leads_openScope .empty).step
    (((leads_body h fun j => ?_).mono fun hroom => ?_).last (leads_closeScope.step ?_))
  · exact standsOpen_block hs
  · rw [Tree.block.sizeOf_spec]
    omega
  · dsimp only
    rw [tail_foldl tail_afterStatement]
    exact .pure

/-- In the initializer of a variable its name is bound, but not ready. -/
theorem stands_initializer (hkey : name.asName = .ok key) (hs : StandsOpen above here) :
    Stands ((.varDecl name e, 1) :: above)
      { here with scopes := bindName here.scopes name false } := by
  refine ⟨hs.inFunction, hs.inClass, ?_, fun {n other} hother => ?_⟩
  · dsimp only
    rw [isEmpty_bindName]
    exact hs.isLocal
  · -- The name is the only one that is not ready.
    have hinit : Surroundings.initializes ((.varDecl name e, 1) :: above) n =
        (name.sameName n && above.isLocal) := rfl
    have hlocal : above.isLocal = !here.scopes.isEmpty := by rw [hs.isLocal, Bool.not_not]
    rw [hinit, hlocal]
    dsimp only [Tree.sameName]
    rw [hkey, hother]
    cases hscopes : here.scopes with
    | nil => simp [bindName, Unready]
    | cons scope outer =>
      have hready : scope.find? other ≠ some false := fun hf =>
        hs.ready.not_unready other ⟨scope, by simp [hscopes], hf⟩
      simp only [Unready, bindName, hkey, List.head?_cons, Option.mem_def, Option.some.injEq,
        exists_eq_left', Bindings.find?_insert, List.isEmpty_cons, Bool.not_false, Bool.and_true]
      cases key == other with
      | true => simp
      | false => simpa using hready

theorem reportsStatement_varDecl (hkey : name.asName = .ok key) (he : ReportsOptional e) :
    ReportsStatement statement (.varDecl name e) := by
  refine .of_succ fun room above here hs => ?_
  unfold statement
  rw [reports_one rfl]
  exact (leads_declare hkey false).step (((he.leads (stands_initializer hkey hs)).deeper 1 rfl
    (by decide)).last ((leads_declare hkey true).step .pure))

/-- A function is written and reported like its method. -/
theorem reportsStatement_funDecl (hkey : name.asName = .ok key)
    (h : ReportsMethod (.funDecl name (.list params) (.list items))) :
    ReportsStatement statement (.funDecl name (.list params) (.list items)) := by
  refine .of_succ fun room above here hs => ?_
  unfold statement
  have hkind : functionKind ((.funDecl name (.list params) (.list items), 2) :: above) =
      .function := by
    have hnot : Surroundings.isInitializer (.funDecl name (.list params) (.list items)) above =
        false := by
      unfold Surroundings.isInitializer
      split
      · rw [hs.member, Bool.and_false]
      · rfl
    simp [functionKind, innermost?_cons, Tree.isFunction, hnot, hs.member]
  have hwalk := h room above { here with scopes := bindReady here.scopes name } hs.inClass
    (hs.ready.bindReady name) hs.outside
  rw [hkind] at hwalk
  exact leads_declareTwice hkey hwalk

/-- An `if` statement is written and reported branch by branch. -/
theorem reportsStatement_ifElse (hc : ReportsExpression c) (ht : ReportsStatement statement t)
    (hd : t.declared? = none)
    (he : e = .null ∨ e.isNull = false ∧ e.declared? = none ∧ ReportsStatement statement e) :
    ReportsStatement statement (.ifElse c t e) := by
  refine .of_succ fun room above here hs => ?_
  unfold statement
  rw [reports_three rfl]
  have hthen := ht room _ here (hs.inside (t := .ifElse c t e) (i := 1) ⟨rfl, rfl, rfl, rfl⟩ rfl)
  rw [afterStatement_of_none hd] at hthen
  have helse : Leads (room < 4 * sizeOf e) (optional (statement room) e) here
      (written here.scopes here.inClass e) here (e.reports ((.ifElse c t e, 2) :: above)) := by
    obtain rfl | ⟨hn, hd, h⟩ := he
    · exact .pure
    · have hwalk := h room _ here
        (hs.inside (t := .ifElse c t e) (i := 2) ⟨rfl, rfl, rfl, rfl⟩ rfl)
      rw [afterStatement_of_none hd] at hwalk
      unfold optional
      rw [hn]
      exact hwalk
  rw [List.append_assoc]
  refine (hc.slot room hs.toStands ⟨rfl, rfl, rfl, rfl⟩ rfl).bind ?_
  refine (hthen.deeper 1 rfl (by decide)).bind ?_
  exact (helse.deeper 2 rfl (by decide)).last .pure

theorem reportsStatement_whileLoop (hc : ReportsExpression c) (ht : ReportsStatement statement t)
    (hd : t.declared? = none) : ReportsStatement statement (.whileLoop c t) := by
  refine .of_succ fun room above here hs => ?_
  unfold statement
  rw [reports_two rfl]
  have hbody := ht room _ here (hs.inside (t := .whileLoop c t) (i := 1) ⟨rfl, rfl, rfl, rfl⟩ rfl)
  rw [afterStatement_of_none hd] at hbody
  refine (hc.slot room hs.toStands ⟨rfl, rfl, rfl, rfl⟩ rfl).bind ?_
  exact (hbody.deeper 1 rfl (by decide)).last .pure

theorem reportsStatement_returnStmt {value : Tree} (ht : keyword = .token token)
    (hv : ReportsOptional value) : ReportsStatement statement (.returnStmt keyword value) := by
  refine .of_succ fun room above here hs => ?_
  unfold statement
  rw [reports_one rfl]
  refine (leads_checkReturn ht hs.toStands).bind ?_
  have hin : Stands ((.returnStmt keyword value, 1) :: above) here :=
    hs.toStands.inside ⟨rfl, rfl, rfl, rfl⟩
  exact ((hv.leads hin).deeper 1 rfl (by decide)).last .pure

/-! ## Classes -/

/-- The place of a method in a class. -/
def memberPlace (name parent : Tree) (methods : List Tree) (above : Surroundings) (j : Nat) :
    Surroundings :=
  (.list methods, j) :: (.classDecl name parent (.list methods), 2) :: above

theorem classKindAt_class (name parent methods : Tree) (i : Nat) (above : Surroundings) :
    classKindAt ((.classDecl name parent methods, i) :: above) = classKind parent := by
  show (if !parent.isNull then InClass.subclass else .root) = classKind parent
  unfold classKind
  by_cases hn : parent.isNull = true
  · simp [hn]
  · simp [hn]

/-- The method named `init` is walked as the initializer. -/
theorem ReportsMethod.leads {params body : Tree}
    (h : ReportsMethod (.funDecl (.token token) params body)) (j : Nat)
    (hclass : here.inClass = classKind parent) (hready : AllReady here.scopes)
    (houtside : above.innermost? Tree.isVariable = none) :
    Leads (room + 1 < 4 * sizeOf (Tree.funDecl (.token token) params body))
      (method (routineRule room) (.funDecl (.token token) params body)) here
      (writtenMethod here.scopes here.inClass (.funDecl (.token token) params body)) here
      ((Tree.funDecl (.token token) params body).reports
        (memberPlace name parent methods above j)) := by
  have hwalk := h room (memberPlace name parent methods above j) here
    (hclass.trans (classKindAt_class name parent (.list methods) 2 above).symm) hready houtside
  have hkind : functionKind ((.funDecl (.token token) params body, 2) ::
      memberPlace name parent methods above j) =
      if token.lexeme == .str "init" then .initializer else .method := by
    simp [functionKind, innermost?_cons, Tree.isFunction, Surroundings.isInitializer,
      Surroundings.isMember, memberPlace]
  rw [hkind] at hwalk
  exact .lift rfl hwalk

/-- The superclass is looked at before the scope for `super` is opened. -/
theorem leads_superclass {own : Token} (hown : name = .token own)
    (hparent : parent = .null ∨ ∃ token, parent = .ident (.token token) none ∧
      ReportsExpression parent) (hclass : here.inClass = .root)
    (hf : here.inFunction = functionKind above) (hl : here.scopes.isEmpty = !above.isLocal)
    (hready : AllReady here.scopes) (houtside : above.innermost? Tree.isVariable = none)
    (k : InClass) :
    Leads (room + 2 < 4 * sizeOf (Tree.classDecl name parent (.list methods)))
      (superclass (expression room) name parent) here (written here.scopes k parent)
      { here with
        scopes := if parent.isNull then here.scopes else superFrame :: here.scopes
        inClass := classKind parent }
      (above.violations (.classDecl name parent (.list methods)) ++
        parent.reports ((.classDecl name parent (.list methods), 1) :: above)) := by
  subst hown
  obtain rfl | ⟨token, rfl, h⟩ := hparent
  · have hsame : ({ here with
        scopes := if Tree.null.isNull then here.scopes else superFrame :: here.scopes
        inClass := classKind .null } : Standing) = here := by
      rw [← show here.inClass = classKind .null from hclass]
      rfl
    rw [hsame]
    exact .pure
  · have hself {D : Prop} := @leads_reportIf D here (.token token) token rfl
      (token.lexeme == own.lexeme) .ownSuperclass
    refine .lift rfl (.lift rfl ?_)
    have hslot : lift (Tree.ident (.token token) none).nameSlot = pure (.token token) := rfl
    simp only [hslot, pure_bind]
    have hrest : Leads (room + 2 < 4 * sizeOf (Tree.classDecl (.token own)
          (.ident (.token token) none) (.list methods))) (do
        modify fun s => { s with inClass := .subclass }
        let parent ← expression room (.ident (.token token) none)
        openScope superFrame
        return parent) here (written here.scopes k (.ident (.token token) none))
        { here with scopes := superFrame :: here.scopes, inClass := .subclass }
        ((Tree.ident (.token token) none).reports
          ((.classDecl (.token own) (.ident (.token token) none) (.list methods), 1) ::
            above)) := by
      have hs : StandsOpen
          ((.classDecl (.token own) (.ident (.token token) none) (.list methods), 1) :: above)
          { here with inClass := .subclass } :=
        .of_ready hf rfl hl hready houtside rfl
      refine (leads_inClass .subclass).step ?_
      exact ((h room _ _ hs.toStands).deeper 1 rfl (by decide)).last
        ((leads_openScope _).step .pure)
    exact hself.condition hrest

/-- A class is written and reported with its methods. -/
theorem reportsStatement_classDecl {own : Token} (hown : name = .token own)
    (hkey : name.asName = .ok key)
    (hparent : parent = .null ∨ ∃ token, parent = .ident (.token token) none ∧
      ReportsExpression parent) (hmethods : ∀ t ∈ methods, ReportsMethod t ∧ ∃ token params body,
      t = .funDecl (.token token) params body) :
    ReportsStatement statement (.classDecl name parent (.list methods)) := by
  refine .of_succ fun room above here hs => ?_
  unfold statement
  cases room with
  | zero =>
    unfold classRule
    refine .tooDeep ?_
    have := sizeOf_pos (.classDecl name parent (.list methods))
    omega
  | succ room =>
  unfold classRule
  rw [reports_two rfl, ← List.append_assoc]
  refine .get fun s hstand => ?_
  have hbefore : s.inClass = here.inClass := by
    rw [← hstand]
    rfl
  dsimp only
  rw [hbefore]
  refine (leads_inClass .root).step (leads_declareTwice hkey ?_)
  have hready := hs.ready.bindReady name
  have hlocal : (bindReady here.scopes name).isEmpty = !above.isLocal := by
    rw [isEmpty_bindReady]
    exact hs.isLocal
  have hsuper := @leads_superclass above ⟨bindReady here.scopes name, here.inFunction, .root⟩ room
    methods name parent own hown hparent rfl hs.inFunction hlocal hready hs.outside
    here.inClass
  refine hsuper.bind ((leads_openScope thisFrame).step ?_)
  have haround : AllReady (aroundMethods (bindReady here.scopes name) parent) := by
    refine .cons (allReady_single _) ?_
    split
    · exact hready
    · exact .cons (allReady_single _) hready
  have hlist : Leads (room + 2 < 4 * sizeOf (Tree.classDecl name parent (.list methods)))
      (eachOf (method (routineRule room)) (.list methods))
      ⟨aroundMethods (bindReady here.scopes name) parent, here.inFunction, classKind parent⟩
      (.list (methods.map (writtenMethod (aroundMethods (bindReady here.scopes name) parent)
        (classKind parent))))
      ⟨aroundMethods (bindReady here.scopes name) parent, here.inFunction, classKind parent⟩
      ((Tree.list methods).reports ((.classDecl name parent (.list methods), 2) :: above)) := by
    refine leads_eachOf fun t ht j => ?_
    obtain ⟨h, token, params, body, rfl⟩ := hmethods t ht
    refine (h.leads j rfl haround hs.outside).mono fun hroom => ?_
    have := List.sizeOf_lt_of_mem ht
    rw [Tree.classDecl.sizeOf_spec, Tree.list.sizeOf_spec]
    omega
  rw [← writtenMethods_eq] at hlist
  refine hlist.last (leads_closeScope.step ?_)
  have hclose {D : Prop} : Leads D (if !parent.isNull then closeScope else pure ())
      ⟨if parent.isNull then bindReady here.scopes name
        else superFrame :: bindReady here.scopes name, here.inFunction, classKind parent⟩ ()
      ⟨bindReady here.scopes name, here.inFunction, classKind parent⟩ [] := by
    cases parent.isNull with
    | true => exact .pure
    | false => exact leads_closeScope
  exact hclose.condition ((leads_inClass here.inClass).step .pure)

/-! ## The whole walk -/

/-- What the walk does with a tree that has the shape of a part of a program. -/
def Reported : Parser.Part → Tree → Prop
  | .expression, t => ReportsExpression t
  | .statement, t => ReportsStatement statement t
  | .declaration, t => ReportsEntry t
  | .method, t => ReportsMethod t

/-- All that the parser builds is written and reported. -/
theorem reported_shaped (hK : Named K) {part : Parser.Part} (h : Shaped K part t) :
    Reported part t := by
  have hexpression {e : Tree} (he : Shaped K .expression e) : ReportsOptional e :=
    .inr ⟨he.isNull_expression, reportsExpression_of_shaped hK he⟩
  induction h with
  | exprStmt he _ | printStmt he _ =>
    refine .of_succ fun room above here hs => ?_
    unfold statement
    rw [reports_one rfl]
    have hwalk := reportsExpression_of_shaped hK he
    exact (hwalk.slot room hs.toStands ⟨rfl, rfl, rfl, rfl⟩ rfl).last .pure
  | block _ ih => exact reportsStatement_block ih
  | ifOnly hc ht _ iht =>
    exact reportsStatement_ifElse (reportsExpression_of_shaped hK hc) iht
      ht.declared?_statement (.inl rfl)
  | ifElse hc ht he _ iht ihe =>
    exact reportsStatement_ifElse (reportsExpression_of_shaped hK hc) iht
      ht.declared?_statement (.inr ⟨he.isNull_statement, he.declared?_statement, ihe⟩)
  | whileLoop hc ht _ iht =>
    exact reportsStatement_whileLoop (reportsExpression_of_shaped hK hc) iht
      ht.declared?_statement
  | emptyReturn hk =>
    obtain ⟨token, -, htoken, -⟩ := hK.slot hk
    exact reportsStatement_returnStmt htoken (.inl rfl)
  | returnStmt hk he _ =>
    obtain ⟨token, -, htoken, -⟩ := hK.slot hk
    exact reportsStatement_returnStmt htoken (hexpression he)
  | null => exact reportsEntry_null
  | statement ht ih => exact ReportsStatement.entry ih ht.isNull_statement
  | emptyVar hn =>
    obtain ⟨-, key, -, hkey⟩ := hK.slot hn
    exact (reportsStatement_varDecl hkey (.inl rfl)).entry rfl
  | varDecl hn he _ =>
    obtain ⟨-, key, -, hkey⟩ := hK.slot hn
    exact (reportsStatement_varDecl hkey (hexpression he)).entry rfl
  | method hn hps _ ih =>
    refine reportsMethod_funDecl (fun p hp => ?_) ih
    obtain ⟨-, key, -, hkey⟩ := hK.slot (hps p hp)
    exact ⟨key, hkey⟩
  | funDecl ht ih =>
    cases ht with
    | method hn _ _ =>
      obtain ⟨-, key, -, hkey⟩ := hK.slot hn
      exact (reportsStatement_funDecl hkey ih).entry rfl
  | rootClass hn hms ih =>
    obtain ⟨token, key, htoken, hkey⟩ := hK.slot hn
    refine (reportsStatement_classDecl htoken hkey (.inl rfl) fun t ht => ⟨ih t ht, ?_⟩).entry rfl
    cases hms t ht with
    | method hn _ _ =>
      obtain ⟨a, rfl, -⟩ := hn
      exact ⟨a, _, _, rfl⟩
  | subclass hn hp hms ih =>
    obtain ⟨token, key, htoken, hkey⟩ := hK.slot hn
    obtain ⟨parent, rfl, hparent⟩ := id hp
    refine (reportsStatement_classDecl htoken hkey (.inr ⟨parent, rfl, ?_⟩)
      fun t ht => ⟨ih t ht, ?_⟩).entry rfl
    · exact reportsExpression_of_shaped hK (.ident hp)
    · cases hms t ht with
      | method hn _ _ =>
        obtain ⟨a, rfl, -⟩ := hn
        exact ⟨a, _, _, rfl⟩
  | _ => exact reportsExpression_of_shaped hK (by constructor <;> assumption)

end Statements

/-! ## Programs -/

/-- Outside of all scopes, functions and classes. -/
def Standing.outside : Standing :=
  ⟨[], .none, .none⟩

/-- The message says that a statement is too deep to be walked. -/
def isTooDeep : Diagnostic → Bool
  | .static _ .nowhere .tooDeep => true
  | _ => false

/-- A statement was too deep to be walked. -/
def TooDeep (ds : List Diagnostic) : Prop :=
  ds.any isTooDeep = true

/-- That a program is nested too deeply can be tested. -/
instance (ds : List Diagnostic) : Decidable (TooDeep ds) :=
  inferInstanceAs (Decidable (ds.any isTooDeep = true))

theorem TooDeep.append_left (h : TooDeep ds) (ds' : List Diagnostic) : TooDeep (ds ++ ds') := by
  unfold TooDeep at h ⊢
  rw [List.any_append, h, Bool.true_or]

theorem TooDeep.append_right {ds' : List Diagnostic} (h : TooDeep ds') (ds : List Diagnostic) :
    TooDeep (ds ++ ds') := by
  unfold TooDeep at h ⊢
  rw [List.any_append, h, Bool.or_true]

section Programs

theorem standsOpen_outside (items : List Tree) (j : Nat) :
    StandsOpen [(.list items, j)] .outside :=
  .of_ready rfl rfl rfl nofun rfl rfl

theorem afterStatement_nil (t : Tree) : afterStatement [] t = [] :=
  foldl_afterStatement_nil [t]

/-- A statement of a program is walked, or it is too deep and that is reported. -/
theorem exists_topLevel (room : Nat) (items : List Tree) {t : Tree} (h : ReportsEntry t) (j : Nat)
    {s : State} (hs : s.standing = .outside) :
    ∃ t' s' said, optional (topLevel room) t s = .ok t' s' ∧ s'.standing = .outside ∧
      s'.problems.toList = s.problems.toList ++ said ∧
      (∀ d ∈ said, d ∈ t.reports [(.list items, j)] ∨ isTooDeep d = true) ∧
      (t' = written [] .none t ∧ said = t.reports [(.list items, j)] ∨
        room < 4 * sizeOf t ∧ TooDeep said) := by
  have hwalk := h room _ .outside (standsOpen_outside items j) s hs
  rw [show afterStatement Standing.outside.scopes t = [] from afterStatement_nil t] at hwalk
  cases hn : t.isNull with
  | true =>
    have hpure {walk : Tree → Resolve Tree} : optional walk t s = .ok t s := by
      unfold optional
      rw [hn]
      rfl
    obtain ⟨ht, -, hp⟩ := hwalk.ok hpure
    exact ⟨t, s, _, hpure, hs, hp, fun _ => .inl, .inl ⟨ht, rfl⟩⟩
  | false =>
    have hthat {walk : Tree → Resolve Tree} : optional walk t = walk t := by
      unfold optional
      rw [hn]
      rfl
    unfold Ends at hwalk
    dsimp only at hwalk
    rw [hthat] at hwalk ⊢
    unfold topLevel
    cases hx : statement room t s with
    | ok t' s' =>
      rw [hx] at hwalk
      obtain ⟨ht, hthere, hp⟩ := hwalk
      exact ⟨t', s', _, rfl, hthere, hp, fun _ => .inl, .inl ⟨ht, rfl⟩⟩
    | error e s' =>
      rw [hx] at hwalk
      obtain ⟨rfl, hroom, ds, hds, hp⟩ := hwalk
      let last : Diagnostic := .static t.firstLine .nowhere .tooDeep
      refine ⟨t, _, ds ++ [last], rfl, rfl, ?_, fun d hd => ?_, .inr ⟨hroom, ?_⟩⟩
      · rw [Array.toList_push, hp, List.append_assoc]
      · obtain hd | hd := List.mem_append.1 hd
        · exact .inl (hds.subset hd)
        · exact .inr (List.mem_singleton.1 hd ▸ rfl)
      · exact TooDeep.append_right (show TooDeep [last] from rfl) ds

/-- A statement leaves the walk outside, and takes no problem back. -/
theorem ReportsStatement.topLevel {t t' : Tree} (h : ReportsEntry t) {s s' : State}
    (hs : s.standing = .outside) (hx : optional (topLevel room) t s = .ok t' s') :
    s'.standing = .outside ∧ (s'.problems = #[] → s.problems = #[]) := by
  obtain ⟨_, _, said, hx', hs', hp, -⟩ := exists_topLevel room [] h 0 hs
  cases hx.symm.trans hx'
  refine ⟨hs', fun hnone => ?_⟩
  rw [hnone] at hp
  exact Array.toList_eq_nil_iff.1 (List.append_eq_nil_iff.1 hp.symm).1

/-- The statements of a program, from number `i` on. -/
theorem exists_eachFrom (room : Nat) (items : List Tree) : ∀ (ts : List Tree) (i : Nat)
    (done : List Tree) {s : State}, (∀ t ∈ ts, ReportsEntry t) → s.standing = .outside →
      ∃ trees s' said, eachFrom (optional (topLevel room)) done ts s = .ok trees s' ∧
        s'.problems.toList = s.problems.toList ++ said ∧
        (∀ d ∈ said, d ∈ reportsFrom (fun j => [(.list items, j)]) i ts ∨ isTooDeep d = true) ∧
        (trees = done.reverse ++ writtenIn [] .none ts ∧
            said = reportsFrom (fun j => [(.list items, j)]) i ts ∨
          (∃ t ∈ ts, room < 4 * sizeOf t) ∧ TooDeep said)
  | [], _, done, s, _, _ =>
    ⟨done.reverse, s, [], rfl, (List.append_nil _).symm, fun _ => .inl,
      .inl ⟨(List.append_nil _).symm, rfl⟩⟩
  | t :: ts, i, done, s, h, hs => by
    obtain ⟨ht, hrest⟩ := List.forall_mem_cons.1 h
    obtain ⟨t', s₁, said, hx, hs₁, hp₁, hall, hone⟩ := exists_topLevel room items ht i hs
    obtain ⟨trees, s₂, said', hy, hp₂, hall', hmore⟩ := exists_eachFrom room items ts (i + 1)
      (t' :: done) hrest hs₁
    rw [reportsFrom_cons]
    refine ⟨trees, s₂, said ++ said', (bind_of_ok hx).trans hy, ?_, fun d hd => ?_, ?_⟩
    · rw [hp₂, hp₁, List.append_assoc]
    · obtain hd | hd := List.mem_append.1 hd
      · exact (hall d hd).imp_left (List.mem_append_left _)
      · exact (hall' d hd).imp_left (List.mem_append_right _)
    obtain ⟨hroom, hdeep⟩ | ⟨rfl, rfl⟩ := hone.symm
    · exact .inr ⟨⟨t, List.mem_cons_self, hroom⟩, hdeep.append_left _⟩
    obtain ⟨⟨u, hu, hroom⟩, hdeep⟩ | ⟨rfl, rfl⟩ := hmore.symm
    · exact .inr ⟨⟨u, List.mem_cons_of_mem t hu, hroom⟩, hdeep.append_right _⟩
    refine .inl ⟨?_, rfl⟩
    rw [writtenIn, afterStatement_nil, List.reverse_cons, List.append_assoc]
    rfl

/-- The resolver gives each use its depth and reports what is wrong, in order, unless a statement is
too deep, which is reported. With room for the size of the program none is. -/
theorem exists_program {K : Token → Prop} (hK : Named K) {ts : List Tree}
    (h : ∀ t ∈ ts, Shaped K .declaration t) (room : Nat) :
    ∃ trees s, program room ts {} = .ok trees s ∧
      (∀ d ∈ s.problems.toList, d ∈ (Tree.list ts).reports [] ∨ isTooDeep d = true) ∧
      (trees = writtenIn [] .none ts ∧ s.problems.toList = (Tree.list ts).reports [] ∨
        room < 4 * sizeOf ts ∧ TooDeep s.problems.toList) := by
  obtain ⟨trees, s, said, hx, hp, hall, hresult⟩ := exists_eachFrom room ts ts 0 [] (s := {})
    (fun t ht => reported_shaped hK (h t ht)) rfl
  rw [← reports_list [] ts] at hall hresult
  obtain rfl : s.problems.toList = said := hp
  refine ⟨trees, s, hx, hall, hresult.imp_right ?_⟩
  rintro ⟨⟨t, ht, hroom⟩, hdeep⟩
  have := List.sizeOf_lt_of_mem ht
  exact ⟨by omega, hdeep⟩

end Programs

end LoxLang.Resolver

namespace LoxLang

open Resolver (Named TooDeep isTooDeep writtenIn)

/-- The same for the room that the resolver has. -/
theorem exists_resolve {K : Token → Prop} (hK : Named K) {ts : List Tree}
    (h : ∀ t ∈ ts, Parser.Shaped K .declaration t) :
    ∃ trees, (resolve ts).statements = .ok trees ∧
      (∀ d ∈ (resolve ts).problems, d ∈ (Tree.list ts).reports [] ∨ isTooDeep d = true) ∧
      (¬TooDeep (resolve ts).problems →
        trees = writtenIn [] .none ts ∧ (resolve ts).problems = (Tree.list ts).reports []) := by
  obtain ⟨trees, s, hrun, hall, hresult⟩ := Resolver.exists_program hK h Tree.maxDepth
  unfold resolve
  rw [hrun]
  exact ⟨trees, rfl, hall, fun hdeep => hresult.resolve_right fun h => hdeep h.2⟩

/-- The tokens of a source have names. -/
theorem named_scan (source : String) : Named (· ∈ (scan source).finish) := by
  obtain ⟨ts, e, hts, -, hgenuine⟩ := scan_genuine source
  rw [Scan.finish, Array.toList_push] at hts ⊢
  obtain ⟨rfl, -⟩ := List.append_inj' hts rfl
  intro a ha
  obtain ha | ha := List.mem_append.1 ha
  · obtain ⟨s, hs, -⟩ := (hgenuine a ha).1.lexeme
    exact ⟨.ofText s, by rw [Token.name, hs]; rfl⟩
  · cases List.mem_singleton.1 ha
    exact ⟨_, rfl⟩

end LoxLang
