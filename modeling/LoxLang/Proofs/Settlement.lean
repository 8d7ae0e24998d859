import LoxLang.Proofs.Writing

/-!
# Settled programs

Where the resolver has nothing to report, each use has got the number of scopes out to the innermost
scope that binds its name, and each name that is read is ready in that scope (`Settled`). What the
resolver writes and reports is known (`exists_resolve`), so this is about the depths that are
written: `settles_statement` says it of statements, and `resolve_fine` of programs.
-/

namespace LoxLang

namespace Tree

/-! ## Violations -/

section Violations

variable {t : Tree} {above : Surroundings} {v : Surroundings × Tree} {d : Diagnostic}

theorem cases_visitsFrom {place : Nat → Surroundings} : ∀ {ts : List Tree} {i : Nat},
    v ∈ visitsFrom place i ts → ∃ (j : Nat) (u : Tree), ts[j]? = some u ∧ v ∈ u.visits (place (i + j))
  | [], _, h => absurd h List.not_mem_nil
  | t :: ts, i, h => by
    obtain h | h := List.mem_append.1 h
    · exact ⟨0, t, rfl, h⟩
    · obtain ⟨j, u, hu, h⟩ := cases_visitsFrom h
      exact ⟨j + 1, u, hu, by rwa [Nat.add_assoc, Nat.add_comm 1] at h⟩

/-- What is visited is the tree itself or in one of its slots. -/
theorem cases_visits (h : v ∈ t.visits above) :
    v = (above, t) ∨
      ∃ (i : Nat) (u : Tree), t.children[i]? = some u ∧ v ∈ u.visits ((t, i) :: above) := by
  unfold visits at h
  refine (List.mem_cons.1 h).imp_right fun h => ?_
  cases t with
  | list items =>
    obtain ⟨j, u, hu, h⟩ := cases_visitsFrom h
    rw [Nat.zero_add] at h
    exact ⟨j, u, hu, h⟩
  | grouping | exprStmt | printStmt | block | getField => exact ⟨0, _, rfl, h⟩
  | unary | assign | varDecl | returnStmt => exact ⟨1, _, rfl, h⟩
  | funDecl => exact ⟨2, _, rfl, h⟩
  | binary | logical | call =>
    obtain h | h := List.mem_append.1 h
    · exact ⟨0, _, rfl, h⟩
    · exact ⟨2, _, rfl, h⟩
  | setField =>
    obtain h | h := List.mem_append.1 h
    · exact ⟨2, _, rfl, h⟩
    · exact ⟨0, _, rfl, h⟩
  | whileLoop =>
    obtain h | h := List.mem_append.1 h
    · exact ⟨0, _, rfl, h⟩
    · exact ⟨1, _, rfl, h⟩
  | classDecl =>
    obtain h | h := List.mem_append.1 h
    · exact ⟨1, _, rfl, h⟩
    · exact ⟨2, _, rfl, h⟩
  | ifElse =>
    obtain h | h := List.mem_append.1 h
    · obtain h | h := List.mem_append.1 h
      · exact ⟨0, _, rfl, h⟩
      · exact ⟨1, _, rfl, h⟩
    · exact ⟨2, _, rfl, h⟩
  | _ => exact absurd h List.not_mem_nil

theorem tokens_of_visits {t : Tree} {above : Surroundings} (h : v ∈ t.visits above) :
    ∀ a ∈ v.2.tokens, a ∈ t.tokens := by
  obtain rfl | ⟨i, u, hu, hv⟩ := cases_visits h
  · exact fun _ ha => ha
  · exact fun a ha => mem_tokens_of_child hu (tokens_of_visits hv a ha)
termination_by sizeOf t
decreasing_by exact Resolver.sizeOf_child hu

theorem mem_problem {slot : Tree} {problem : Problem} (h : d ∈ slot.problem problem) :
    ∃ a ∈ slot.tokens, d = .ofToken a problem := by
  unfold Tree.problem at h
  split at h
  · exact ⟨_, List.mem_singleton.2 rfl, List.mem_singleton.1 h⟩
  · cases h

/-- A tree does something wrong at one of its tokens. -/
theorem exists_token_of_violations (h : d ∈ above.violations t) :
    ∃ a ∈ t.tokens, ∃ problem, d = .ofToken a problem := by
  have hslot {slot : Tree} {problem : Problem} (i : Nat) (hs : t.children[i]? = some slot)
      (h : d ∈ slot.problem problem) : ∃ a ∈ t.tokens, ∃ problem, d = .ofToken a problem := by
    obtain ⟨a, ha, rfl⟩ := mem_problem h
    exact ⟨a, mem_tokens_of_child hs ha, problem, rfl⟩
  unfold Surroundings.violations at h
  split at h
  · split at h
    · exact hslot 0 rfl h
    · split at h
      · exact hslot 0 rfl h
      · cases h
  · split at h
    · exact hslot 0 rfl h
    · cases h
  · split at h
    · exact hslot 0 rfl h
    · cases h
  · split at h
    · exact hslot 0 rfl h
    · split at h
      · cases h
      · exact hslot 0 rfl h
  · next name parent _ _ =>
    split at h
    · cases List.mem_singleton.1 h
      refine ⟨parent, ?_, _, rfl⟩
      exact mem_tokens_of_child (i := 1) rfl (mem_tokens_of_child (i := 0) rfl
        (List.mem_singleton.2 rfl))
    · cases h
  · cases h

theorem exists_token_of_reports (h : d ∈ t.reports above) :
    ∃ a ∈ t.tokens, ∃ problem, d = .ofToken a problem := by
  obtain ⟨v, hv, hd⟩ := List.mem_flatMap.1 h
  obtain ⟨a, ha, problem, rfl⟩ := exists_token_of_violations hd
  exact ⟨a, tokens_of_visits hv a ha, problem, rfl⟩

end Violations

end Tree

namespace Resolver

/-! ## Expressions -/

section Expressions

variable {above : Surroundings} {here : Standing} {t u v w : Tree} {p q r : Surroundings}
  {scopes : List Frame} {word : String}

/-! Where nothing is wrong with a tree, nothing is wrong with what is in its slots. -/

theorem silent_one (h : t.reports above = []) (hv : t.visits above = (above, t) :: u.visits p) :
    u.reports p = [] :=
  (List.append_eq_nil_iff.1 ((reports_one hv).symm.trans h)).2

theorem silent_two (h : t.reports above = [])
    (hv : t.visits above = (above, t) :: (u.visits p ++ v.visits q)) :
    u.reports p = [] ∧ v.reports q = [] :=
  List.append_eq_nil_iff.1 (List.append_eq_nil_iff.1 ((reports_two hv).symm.trans h)).2

theorem silent_three (h : t.reports above = [])
    (hv : t.visits above = (above, t) :: (u.visits p ++ v.visits q ++ w.visits r)) :
    u.reports p = [] ∧ v.reports q = [] ∧ w.reports r = [] := by
  have hall := (reports_three hv).symm.trans h
  simp only [List.append_eq_nil_iff] at hall
  exact ⟨hall.2.1.1, hall.2.1.2, hall.2.2⟩

/-- A list without reports has items without reports. -/
theorem silent_list {items : List Tree} (h : (Tree.list items).reports above = []) {i : Nat}
    (hi : items[i]? = some t) : t.reports ((.list items, i) :: above) = [] := by
  have hfrom : ∀ {ts : List Tree} {place : Nat → Surroundings} {i j : Nat},
      reportsFrom place i ts = [] → ts[j]? = some t → t.reports (place (i + j)) = [] := by
    intro ts
    induction ts with
    | nil => exact fun _ hj => (by cases hj)
    | cons u ts ih =>
      intro place i j h hj
      rw [reportsFrom_cons, List.append_eq_nil_iff] at h
      cases j with
      | zero =>
        cases hj
        exact h.1
      | succ j =>
        rw [← Nat.succ_add_eq_add_succ]
        exact ih h.2 hj
  rw [reports_list] at h
  simpa using hfrom h hi

/-- A name that may be read is ready. -/
theorem ready_of_depthOf? {key : Name} (ho : OuterReady scopes) (hh : ¬Unready scopes key) {d : Nat}
    (hd : depthOf? scopes key = some d) : Ready scopes d key := by
  obtain ⟨scope, ready, hs, hr⟩ := exists_of_depthOf? hd
  refine ⟨scope, hs, ?_⟩
  cases scopes with
  | nil => simp at hs
  | cons first outer =>
    cases d with
    | zero =>
      obtain rfl : first = scope := by simpa using hs
      cases ready with
      | false => exact absurd ⟨first, rfl, hr⟩ hh
      | true => exact hr
    | succ d => rw [hr, ho scope (List.mem_of_getElem? hs) key ready hr]

/-- A name that is read gets its depth, and is ready there. -/
theorem fine_ident {name : Tree} (hname : name.IsName) (ho : OuterReady scopes)
    (h : ∀ key, name.asName = .ok key → ¬Unready scopes key) :
    Everywhere Fine ⟨.expression, scopes⟩ (.ident name (depthIn scopes name)) := by
  refine .leaf ⟨.ident hname, fun key hkey => ?_⟩ rfl
  have hdepth : depthIn scopes name = depthOf? scopes key := by
    unfold depthIn
    rw [hkey]
  exact ⟨hdepth, fun d hd => ready_of_depthOf? ho (h key hkey) (hdepth ▸ hd)⟩

theorem depthIn_word (h : t.IsWord word) (scopes : List Frame) :
    depthIn scopes t = depthOf? scopes (.ofText word) := by
  unfold depthIn
  rw [h.asName]

/-- Where `this` may be used, the scope of a class is open. -/
theorem Members.this {k : InClass} (h : Members scopes k) (hk : k ≠ .none) :
    ∃ d, depthOf? scopes (.ofText "this") = some d ∧
      Ready scopes d (.ofText "this") := by
  cases k with
  | none => exact absurd rfl hk
  | root => exact h
  | subclass =>
    obtain ⟨d, hd, hr, -⟩ := h
    exact ⟨d, hd, hr⟩

theorem problem_ne_nil (token : Token) (problem : Problem) :
    (Tree.token token).problem problem ≠ [] :=
  List.cons_ne_nil _ _

/-- A `this` without a violation stands in a class. -/
theorem classKindAt_of_this {keyword : Tree} (hw : keyword.IsWord word) {depth : Option Nat}
    (h : above.violations (.thisRef keyword depth) = []) : classKindAt above ≠ .none := by
  obtain ⟨token, rfl, -⟩ := hw
  unfold Surroundings.violations at h
  unfold classKindAt
  cases hc : above.innermost? Tree.isClass with
  | none =>
    rw [hc] at h
    exact absurd h (problem_ne_nil _ _)
  | some c =>
    dsimp only
    split <;> exact nofun

/-- A `super` without a violation stands in a subclass. -/
theorem classKindAt_of_super {keyword method : Tree} (hw : keyword.IsWord word) {depth : Option Nat}
    (h : above.violations (.superRef keyword method depth) = []) :
    classKindAt above = .subclass := by
  obtain ⟨token, rfl, -⟩ := hw
  unfold Surroundings.violations at h
  unfold classKindAt
  cases hc : above.innermost? Tree.isClass with
  | none =>
    rw [hc] at h
    exact absurd h (problem_ne_nil _ _)
  | some c =>
    rw [hc] at h
    dsimp only at h ⊢
    split at h
    · next hi => rw [if_pos hi]
    · exact absurd h (problem_ne_nil _ _)

theorem plain_of_expression (h : Formed .expression t) (i : Nat) : Plain t i := by
  cases h <;> exact ⟨rfl, rfl, rfl, rfl⟩

/-- The uses of an expression are settled where nothing is wrong with it. -/
theorem fine_expression {t : Tree} {above : Surroundings} (ht : WellFormed .expression t)
    (hs : Stands above here) (ho : OuterReady here.scopes)
    (hm : Members here.scopes here.inClass) (h : t.reports above = []) :
    Everywhere Fine ⟨.expression, here.scopes⟩ (written here.scopes here.inClass t) := by
  have slot {u : Tree} (i : Nat) (hr : Role.expression.inside t i = some .expression)
      (hu : t.children[i]? = some u) (h : u.reports ((t, i) :: above) = []) :
      Everywhere Fine ⟨.expression, here.scopes⟩ (written here.scopes here.inClass u) :=
    fine_expression (ht.child i hr hu) (hs.inside (plain_of_expression ht.formed i)) ho hm h
  have argument {us : List Tree} {u : Tree} (i : Nat)
      (hr : Role.expression.inside t 2 = some .arguments) (hus : t.children[2]? = some (.list us))
      (hu : us[i]? = some u) (h : (Tree.list us).reports ((t, 2) :: above) = []) :
      Everywhere Fine ⟨.expression, here.scopes⟩ (written here.scopes here.inClass u) :=
    fine_expression (WellFormed.child (t := .list us) (ht.child 2 hr hus) i rfl hu)
      ((hs.inside (plain_of_expression ht.formed 2)).inside ⟨rfl, rfl, rfl, rfl⟩) ho hm
      (silent_list h hu)
  cases ht.formed with
  | literal => exact .leaf ⟨.literal, trivial⟩ rfl
  | ident hname =>
    refine fine_ident hname ho fun key hkey => ?_
    obtain ⟨token, _, rfl, -, -⟩ := hname
    rw [hs.unready hkey]
    intro hinit
    rw [reports_none rfl, Surroundings.violations, if_pos hinit] at h
    exact problem_ne_nil _ _ h
  | assign hname =>
    refine .one ⟨.assign hname, fun key hkey => ?_⟩ rfl (slot 1 rfl rfl (silent_one h rfl))
    unfold depthIn
    rw [hkey]
  | thisRef hword =>
    have hne : here.inClass ≠ .none :=
      hs.inClass ▸ classKindAt_of_this hword ((reports_none rfl).symm.trans h)
    obtain ⟨d, hthis, hready⟩ := hm.this hne
    rw [written, if_neg hne, depthIn_word hword]
    exact .leaf ⟨.thisRef hword, d, hthis, hthis, hready⟩ rfl
  | superRef hword hmethod =>
    rw [hs.inClass, classKindAt_of_super hword ((reports_none rfl).symm.trans h)] at hm
    obtain ⟨d, hthis, hready, hsuper, hready'⟩ := hm
    rw [written, depthIn_word hword]
    exact .leaf ⟨.superRef hword hmethod, d, hsuper, hsuper, hready', hthis, hready⟩ rfl
  | unary hop => exact .one ⟨.unary hop, trivial⟩ rfl (slot 1 rfl rfl (silent_one h rfl))
  | binary hop hlevel =>
    obtain ⟨hl, hr⟩ := silent_two h rfl
    exact .two ⟨.binary hop hlevel, trivial⟩ rfl (slot 0 rfl rfl hl) (slot 2 rfl rfl hr)
  | logical =>
    obtain ⟨hl, hr⟩ := silent_two h rfl
    exact .two ⟨.logical, trivial⟩ rfl (slot 0 rfl rfl hl) (slot 2 rfl rfl hr)
  | grouping => exact .one ⟨.grouping, trivial⟩ rfl (slot 0 rfl rfl (silent_one h rfl))
  | @call _ arguments =>
    have hargs : WellFormed .arguments arguments := ht.child 2 rfl rfl
    cases hargs.formed with
    | arguments =>
    obtain ⟨hc, ha⟩ := silent_two h rfl
    rw [written, writtenEach_eq]
    refine .two ⟨.call, trivial⟩ rfl (slot 0 rfl rfl hc)
      (.list ⟨.arguments, trivial⟩ (fun _ => rfl) ?_)
    intro u' hu'
    obtain ⟨u, hu, rfl⟩ := List.mem_map.1 hu'
    obtain ⟨i, hi⟩ := List.getElem?_of_mem hu
    exact argument i rfl rfl hi ha
  | getField hname => exact .one ⟨.getField hname, trivial⟩ rfl (slot 0 rfl rfl (silent_one h rfl))
  | setField hname =>
    obtain ⟨hv, hobject⟩ := silent_two h rfl
    exact .two ⟨.setField hname, trivial⟩ rfl (slot 0 rfl rfl hobject) (slot 2 rfl rfl hv)
termination_by sizeOf t
decreasing_by
  · exact sizeOf_child hu
  · exact Nat.lt_trans (sizeOf_child (t := .list us) hu) (sizeOf_child hus)

end Expressions

/-! ## Statements -/

section Statements

variable {above : Surroundings} {here : Standing} {name : Tree} {S : List Frame}

/-- What statements leave depends only on what they declare. -/
theorem foldl_afterStatement_congr : ∀ {ts us : List Tree} (S : List Frame),
    ts.map Tree.declared? = us.map Tree.declared? →
      ts.foldl afterStatement S = us.foldl afterStatement S
  | [], [], _, _ => rfl
  | t :: ts, u :: us, S, h => by
    obtain ⟨ht, hts⟩ := List.cons.inj h
    have hafter : afterStatement S t = afterStatement S u := by
      unfold afterStatement
      rw [ht]
    rw [List.foldl_cons, List.foldl_cons, hafter]
    exact foldl_afterStatement_congr _ hts

theorem map_declared?_writtenIn (k : InClass) : ∀ (ts : List Tree) (S : List Frame),
    (writtenIn S k ts).map Tree.declared? = ts.map Tree.declared?
  | [], _ => rfl
  | t :: ts, S => by
    rw [writtenIn, List.map_cons, List.map_cons, declared?_written, map_declared?_writtenIn k ts]

theorem Members.afterStatement {scopes : List Frame} {inClass : InClass}
    (h : Members scopes inClass) {t : Tree} (ht : Formed .statement t) :
    Members (afterStatement scopes t) inClass := by
  unfold Resolver.afterStatement
  split
  · next hd => exact h.bindReady (ht.isName_declared hd)
  · exact h

/-- Before each of some statements the walk stands where it stood before the first one. -/
theorem StandsOpen.foldl : ∀ {ts : List Tree} {here : Standing},
    (∀ t ∈ ts, Formed .statement t) → StandsOpen above here → Members here.scopes here.inClass →
    StandsOpen above { here with scopes := ts.foldl Resolver.afterStatement here.scopes } ∧
      Members (ts.foldl Resolver.afterStatement here.scopes) here.inClass
  | [], _, _, hs, hm => ⟨hs, hm⟩
  | t :: _, _, hts, hs, hm => by
    obtain ⟨ht, hrest⟩ := List.forall_mem_cons.1 hts
    have hlater := StandsOpen.foldl hrest (hs.afterStatement t) (hm.afterStatement ht)
    exact hlater

/-- The uses of a statement are settled wherever nothing is wrong with it. -/
def SettlesStatement (t : Tree) : Prop :=
  ∀ {above : Surroundings} {here : Standing}, StandsOpen above here →
    Members here.scopes here.inClass → t.reports above = [] →
    Everywhere Fine ⟨.statement, here.scopes⟩ (written here.scopes here.inClass t)

/-- A body is fine if its statements are, each with the names before it. -/
theorem fine_body (here : Standing) {items : List Tree}
    (hitems : ∀ t ∈ items, Formed .statement t) (ih : ∀ t ∈ items, SettlesStatement t)
    (hs : ∀ j, StandsOpen ((.list items, j) :: above) here)
    (hm : Members here.scopes here.inClass) (h : (Tree.list items).reports above = []) :
    Everywhere Fine ⟨.body, here.scopes⟩ (.list (writtenIn here.scopes here.inClass items)) := by
  refine .body ⟨.body, trivial⟩ fun i t' ht' => ?_
  rw [getElem?_writtenIn] at ht'
  obtain ⟨t, ht, rfl⟩ := Option.map_eq_some_iff.1 ht'
  have hscopes : ((writtenIn here.scopes here.inClass items).take i).foldl afterStatement
      here.scopes = (items.take i).foldl afterStatement here.scopes := by
    refine foldl_afterStatement_congr _ ?_
    rw [List.map_take, map_declared?_writtenIn, List.map_take]
  rw [hscopes]
  obtain ⟨hs', hm'⟩ := StandsOpen.foldl (fun t ht => hitems t (List.mem_of_mem_take ht)) (hs i) hm
  exact ih t (List.mem_of_getElem? ht) hs' hm' (silent_list h ht)

/-- The body of a function, with its parameters. -/
theorem fine_routine {params items : List Tree} (hparams : ∀ p ∈ params, p.IsName)
    (hitems : ∀ t ∈ items, Formed .statement t) (ih : ∀ t ∈ items, SettlesStatement t) {k : InClass}
    (hclass : k = classKindAt above) (hready : AllReady S)
    (hvariable : above.innermost? Tree.isVariable = none) (hm : Members S k)
    (h : (Tree.funDecl name (.list params) (.list items)).reports above = []) :
    Everywhere Fine ⟨.body, params.foldl bindReady (.empty :: S)⟩
      (.list (writtenIn (params.foldl bindReady (.empty :: S)) k items)) :=
  fine_body ⟨_, _, k⟩ hitems ih (fun _ => standsOpen_routine hclass hready hvariable)
    (hm.empty_cons.foldl_bindReady hparams) (silent_one h rfl)

/-- A class with another name than its superclass. -/
theorem settled_class {parent methods methods' : Tree} {depth depth' : Option Nat}
    (hname : name.IsName) (hparent : parent.IsName)
    (h : above.violations (.classDecl name (.ident parent depth) methods) = []) (S : List Frame) :
    Settled S (.classDecl name (.ident parent depth') methods') := by
  obtain ⟨own, a, rfl, ha, -⟩ := hname
  obtain ⟨token, b, rfl, hb, -⟩ := hparent
  intro key other hkey hother
  simp only [Tree.asName, Tree.asToken, Tree.asToken?, Token.name, ha, hb, Json.str] at hkey hother
  cases hkey
  cases hother
  refine Bool.eq_false_iff.2 fun he => ?_
  have hsame : (token.lexeme == own.lexeme) = true := by
    rw [ha, hb]
    exact Scalar.agrees_symm he
  rw [Surroundings.violations, if_pos hsame] at h
  cases h

theorem allReady_aroundMethods (h : AllReady S) (parent : Tree) :
    AllReady (aroundMethods S parent) := by
  refine .cons (allReady_single _) ?_
  split
  · exact h
  · exact .cons (allReady_single _) h

/-- The methods of a class are settled if the statements in them are. -/
theorem fine_members (parent : Tree) {methods : List Tree}
    (hmethods : WellFormed .members (.list methods))
    (ih : ∀ {name params : Tree} {items : List Tree}, .funDecl name params (.list items) ∈ methods →
      ∀ t ∈ items, SettlesStatement t) (hready : AllReady S)
    (houtside : above.innermost? Tree.isVariable = none)
    (h : (Tree.list methods).reports ((.classDecl name parent (.list methods), 2) :: above) = []) :
    Everywhere Fine ⟨.members, aroundMethods S parent⟩
      (.list (writtenMethods (aroundMethods S parent) (classKind parent) methods)) := by
  rw [writtenMethods_eq]
  refine .list ⟨.members, trivial⟩ (fun _ => rfl) fun t' ht' => ?_
  obtain ⟨t, ht, rfl⟩ := List.mem_map.1 ht'
  obtain ⟨j, hj⟩ := List.getElem?_of_mem ht
  have hmethod : WellFormed .method t := hmethods.child j rfl hj
  cases hmethod.formed with
  | @method name' body params hname hparams =>
  have hbody : WellFormed .body body := hmethod.child 2 rfl rfl
  cases hbody.formed with
  | @body items =>
  have hclass : classKind parent = classKindAt (memberPlace name parent methods above j) :=
    (classKindAt_class name parent (.list methods) 2 above).symm
  refine .one ⟨.method hname hparams, trivial⟩ rfl ?_
  exact fine_routine hparams (fun u hu => (hbody.items (fun _ => rfl) u hu).formed) (ih ht) hclass
    (allReady_aroundMethods hready parent) houtside (members_aroundMethods S parent)
    (silent_list h hj)

/-- A statement without reports is fine as it is written. -/
theorem settles_statement {t : Tree} (ht : WellFormed .statement t) : SettlesStatement t := by
  -- the statements below the statement, in its slots, in its body, and in the methods of a class
  have statement {u : Tree} (i : Nat) (hr : Role.statement.inside t i = some .statement)
      (hu : t.children[i]? = some u) : SettlesStatement u :=
    settles_statement (ht.child i hr hu)
  have body {us : List Tree} (i : Nat) (hr : Role.statement.inside t i = some .body)
      (hus : t.children[i]? = some (.list us)) :
      (∀ u ∈ us, Formed .statement u) ∧ ∀ u ∈ us, SettlesStatement u := by
    have hitems := (ht.child i hr hus).items fun _ => rfl
    exact ⟨fun u hu => (hitems u hu).formed, fun u hu => settles_statement (hitems u hu)⟩
  have member {methods : List Tree} (hr : Role.statement.inside t 2 = some .members)
      (hms : t.children[2]? = some (.list methods)) {name params : Tree} {items : List Tree}
      (hm : .funDecl name params (.list items) ∈ methods) : ∀ u ∈ items, SettlesStatement u := by
    have hmethod := (ht.child 2 hr hms).items (fun _ => rfl) _ hm
    have hitems : WellFormed .body (.list items) := hmethod.child 2 rfl rfl
    exact fun u hu => settles_statement (hitems.items (fun _ => rfl) u hu)
  intro above here hs hm h
  have expression {u : Tree} (i : Nat) (hr : Role.statement.inside t i = some .expression)
      (hu : t.children[i]? = some u) (hp : Plain t i) (h : u.reports ((t, i) :: above) = []) :
      Everywhere Fine ⟨.expression, here.scopes⟩ (written here.scopes here.inClass u) :=
    fine_expression (ht.child i hr hu) (hs.toStands.inside hp) hs.ready.outer hm h
  have optional {role : Role} {u : Tree} {k : InClass} {S : List Frame}
      (h : (written S k u).isNull = false) : role.optional u = some role := by
    rw [isNull_written] at h
    simp [Role.optional, h]
  cases ht.formed with
  | exprStmt =>
    exact .one ⟨.exprStmt, trivial⟩ rfl
      (expression 0 rfl rfl ⟨rfl, rfl, rfl, rfl⟩ (silent_one h rfl))
  | printStmt =>
    exact .one ⟨.printStmt, trivial⟩ rfl
      (expression 0 rfl rfl ⟨rfl, rfl, rfl, rfl⟩ (silent_one h rfl))
  | @varDecl name initializer hname =>
    obtain ⟨_, hkey, -⟩ := hname.exists_key
    refine .varDecl ⟨.varDecl hname, trivial⟩ fun hn => ?_
    exact fine_expression (ht.child 1 (optional hn) rfl) (stands_initializer hkey hs)
      (OuterReady.bindName hs.ready name false) (hm.bindName hname false) (silent_one h rfl)
  | @block items =>
    have hitems : WellFormed .body items := ht.child 0 rfl rfl
    cases hitems.formed with
    | body =>
    obtain ⟨hforms, ih⟩ := body 0 rfl rfl
    exact .one ⟨.block, trivial⟩ rfl
      (fine_body _ hforms ih (fun _ => standsOpen_block hs) hm.empty_cons (silent_one h rfl))
  | @ifElse c a b hthen helse =>
    obtain ⟨hc, ha, hb⟩ := silent_three h rfl
    refine .ifElse ⟨.ifElse ?_ ?_, trivial⟩ (expression 0 rfl rfl ⟨rfl, rfl, rfl, rfl⟩ hc) ?_ ?_
    · rw [declared?_written, hthen]
    · rw [declared?_written, helse]
    · exact statement 1 rfl rfl (hs.inside ⟨rfl, rfl, rfl, rfl⟩ rfl) hm ha
    · exact fun hn => statement 2 (optional hn) rfl (hs.inside ⟨rfl, rfl, rfl, rfl⟩ rfl) hm hb
  | whileLoop hloop =>
    obtain ⟨hc, hb⟩ := silent_two h rfl
    refine .two ⟨.whileLoop ?_, trivial⟩ rfl (expression 0 rfl rfl ⟨rfl, rfl, rfl, rfl⟩ hc) ?_
    · rw [declared?_written, hloop]
    · exact statement 1 rfl rfl (hs.inside ⟨rfl, rfl, rfl, rfl⟩ rfl) hm hb
  | @funDecl name items params hname hparams =>
    have hitems : WellFormed .body items := ht.child 2 rfl rfl
    cases hitems.formed with
    | body =>
    obtain ⟨hforms, ih⟩ := body 2 rfl rfl
    exact .one ⟨.funDecl hname hparams, trivial⟩ rfl (fine_routine hparams hforms ih hs.inClass
      (hs.ready.bindReady name) hs.outside (hm.bindReady hname) h)
  | returnStmt =>
    refine .returnStmt ⟨.returnStmt, trivial⟩ fun hn => ?_
    exact expression 1 (optional hn) rfl ⟨rfl, rfl, rfl, rfl⟩ (silent_one h rfl)
  | @rootClass name methods hname =>
    have hmethods : WellFormed .members methods := ht.child 2 rfl rfl
    cases hmethods.formed with
    | members =>
    refine .classDecl ⟨.rootClass hname, trivial⟩ (fun hn => by cases hn) ?_
    exact fine_members _ hmethods (member rfl rfl) (hs.ready.bindReady name) hs.outside
      (silent_two h rfl).2
  | @subclass name parent methods depth hname hparent =>
    have hmethods : WellFormed .members methods := ht.child 2 rfl rfl
    cases hmethods.formed with
    | members =>
    have hready := hs.ready.bindReady name
    have hown := (List.append_eq_nil_iff.1 ((reports_two rfl).symm.trans h)).1
    refine .classDecl ⟨.subclass hname hparent, settled_class hname hparent hown _⟩ (fun _ => ?_) ?_
    · exact fine_ident hparent hready.outer fun key _ => hready.not_unready key
    · exact fine_members (.ident parent depth) hmethods (member rfl rfl) hready hs.outside
        (silent_two h rfl).2
termination_by sizeOf t
decreasing_by
  · exact sizeOf_child hu
  · have := sizeOf_child hus
    have := List.sizeOf_lt_of_mem hu
    simp only [Tree.list.sizeOf_spec] at *
    omega
  · have := sizeOf_child hms
    have := List.sizeOf_lt_of_mem hm
    have := List.sizeOf_lt_of_mem hu
    simp only [Tree.list.sizeOf_spec, Tree.funDecl.sizeOf_spec] at *
    omega

end Statements

end Resolver

/-! ## Programs -/

open Resolver

/-- A program of the right form is resolved without a fault, and what is wrong with it is a static
problem. Where nothing is reported its uses are settled everywhere. -/
theorem resolve_fine {source : String} {statements : List Tree} {problems : List Diagnostic}
    (hp : parse? (scan source).finish = some ⟨statements, problems⟩)
    (h : ∀ t ∈ statements, WellFormed .statement t) :
    ∃ trees, (resolve statements).statements = .ok trees ∧
      (∀ d ∈ (resolve statements).problems, d.isStatic = true) ∧
      ((resolve statements).problems = [] → Everywhere Fine ⟨.body, []⟩ (.list trees)) := by
  obtain ⟨trees, htrees, hall, hresult⟩ := exists_resolve (named_scan source)
    (shaped_parse hp)
  refine ⟨trees, htrees, fun d hd => ?_, fun hnone => ?_⟩
  · obtain hd | hd := hall d hd
    · obtain ⟨a, -, problem, rfl⟩ := Tree.exists_token_of_reports hd
      rfl
    · unfold isTooDeep at hd
      split at hd
      · rfl
      · cases hd
  · obtain ⟨rfl, hreports⟩ := hresult (by rw [hnone]; exact nofun)
    exact fine_body .outside (fun t ht => (h t ht).formed)
      (fun t ht => settles_statement (h t ht)) (standsOpen_outside statements) trivial
      (hreports ▸ hnone)

end LoxLang
