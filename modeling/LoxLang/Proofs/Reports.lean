import Mathlib.Logic.Relation
import LoxLang.Proofs.Sources

/-!
# What the resolver reports

A problem that the resolver reports is one at a token of the program, unless a statement is too deep
to be walked (`placed_resolve`). Where it has nothing to report, every `return` stands in a function,
and a `return` of an initializer has no value (`Obeys`). What counts is the innermost function around
the `return`, whatever blocks, loops and conditionals are in between (`Includes`).

Both are read off the violations of the static rules. The trees that were parsed have none
(`obliging_shaped`), and the resolved ones differ from them in depths alone.
-/

namespace LoxLang

open LoxLang.Parser (Shaped)
open Resolver (functionKind reportsFrom isTooDeep)

variable {t : Tree} {K : Token → Prop} {f : Tree → List Tree}

namespace Tree

variable {kind : Resolver.InFunction}

/-! ## Statements inside statements -/

/-- The statements right inside a statement that belong to the same function. -/
def parts : Tree → List Tree
  | block (list items) => items
  | ifElse _ thenBranch elseBranch => [thenBranch, elseBranch]
  | whileLoop _ body => [body]
  | _ => []

/-- The statements right inside a statement. Those of a class are its methods. -/
def inner : Tree → List Tree
  | funDecl _ _ (list items) => items
  | classDecl _ _ (list methods) => methods
  | t => t.parts

/-- The second statement is a part of the first one, with no function in between. -/
def Includes : Tree → Tree → Prop :=
  Relation.ReflTransGen fun t u => u ∈ t.parts

/-- The second statement stands somewhere in the first one. -/
def Contains : Tree → Tree → Prop :=
  Relation.ReflTransGen fun t u => u ∈ t.inner

/-- A function with the name of an initializer. -/
def IsInitializer (t : Tree) : Prop :=
  ∃ token params body, t = .funDecl (.token token) params body ∧ token.lexeme = .str "init"

/-- The statement may stand right in a function of the given kind. -/
def Allowed (kind : Resolver.InFunction) : Tree → Prop
  | returnStmt _ value => kind ≠ .none ∧ (kind = .initializer → value.isNull = true)
  | _ => True

/-- All parts of the statement may stand in a function of the given kind. -/
def Obeys (kind : Resolver.InFunction) (t : Tree) : Prop :=
  ∀ u, t.Includes u → u.Allowed kind

/-- The initializers of a class obey. -/
def InitializersObey : Tree → Prop
  | classDecl _ _ (list methods) =>
    ∀ method ∈ methods, method.IsInitializer → ∀ u ∈ method.inner, u.Obeys .initializer
  | _ => True

/-- The initializers of all classes in a statement obey. -/
def AllObey (t : Tree) : Prop :=
  ∀ u, t.Contains u → u.InitializersObey

theorem forall_reflTransGen_iff {α : Type} {r : α → α → Prop} {P : α → Prop} {a : α} :
    (∀ b, Relation.ReflTransGen r a b → P b) ↔
      P a ∧ ∀ c, r a c → ∀ b, Relation.ReflTransGen r c b → P b := by
  refine ⟨fun h => ⟨h a .refl, fun c hc b hb => h b (.head hc hb)⟩, ?_⟩
  rintro ⟨ha, h⟩ b hb
  rcases hb.cases_head with rfl | ⟨c, hc, hcb⟩
  · exact ha
  · exact h c hc b hcb

theorem obeys_iff : t.Obeys kind ↔ t.Allowed kind ∧ ∀ u ∈ t.parts, u.Obeys kind :=
  forall_reflTransGen_iff

theorem allObey_iff : t.AllObey ↔ t.InitializersObey ∧ ∀ u ∈ t.inner, u.AllObey :=
  forall_reflTransGen_iff

/-! ## Tokens of the slots -/

/-- All tokens of the tree have the property. -/
def TokensFrom (P : Token → Prop) (t : Tree) : Prop :=
  ∀ a ∈ t.tokens, P a

variable {P : Token → Prop} {t u : Tree}

theorem TokensFrom.child (h : t.TokensFrom P) (i : Nat) (hu : t.children[i]? = some u) :
    u.TokensFrom P :=
  fun _ ha => h _ (mem_tokens_of_child hu ha)

theorem TokensFrom.asToken (h : t.TokensFrom P) {a : Token} (ha : t.asToken = .ok a) : P a := by
  cases t <;> cases ha
  exact h _ (List.mem_singleton.2 rfl)

/-! ## Trees without violations -/

variable {above : Surroundings}

/-- The statement obeys, and so does all that is in it. -/
def StatementObeys (kind : Resolver.InFunction) (t : Tree) : Prop :=
  t.Obeys kind ∧ t.AllObey

/-- A statement that is made of parts obeys if its parts do. -/
theorem statementObeys_of_parts (ha : t.Allowed kind) (hi : t.InitializersObey)
    (hin : t.inner = t.parts) (h : ∀ u ∈ t.parts, StatementObeys kind u) : StatementObeys kind t :=
  ⟨obeys_iff.2 ⟨ha, fun u hu => (h u hu).1⟩,
    allObey_iff.2 ⟨hi, fun u hu => (h u (hin ▸ hu)).2⟩⟩

theorem statementObeys_leaf (ha : t.Allowed kind) (hi : t.InitializersObey) (hin : t.inner = [])
    (hp : t.parts = []) : StatementObeys kind t :=
  statementObeys_of_parts ha hi (hin.trans hp.symm) (by simp [hp])

/-- What is in a statement that is no function stands in the same function. -/
theorem StatementObeys.outside {i : Nat} (h : StatementObeys (functionKind ((t, i) :: above)) u)
    (ht : t.isFunction = false) : StatementObeys (functionKind above) u := by
  unfold functionKind at h
  rwa [Resolver.innermost?_cons, ht, if_neg Bool.false_ne_true] at h

/-- A `return` without a violation is allowed. -/
theorem allowed_of_violations {keyword value : Tree} {a : Token} (hk : keyword = .token a)
    (h : above.violations (.returnStmt keyword value) = []) :
    (returnStmt keyword value).Allowed (functionKind above) := by
  subst hk
  unfold functionKind
  show _ ≠ _ ∧ _
  cases hf : above.innermost? isFunction with
  | none =>
    simp only [Surroundings.violations, hf] at h
    cases h
  | some p =>
    obtain ⟨f, outer⟩ := p
    simp only [Surroundings.violations, hf] at h
    dsimp only
    cases hinit : Surroundings.isInitializer f outer with
    | true =>
      refine ⟨by simp, fun _ => ?_⟩
      cases hv : value.isNull with
      | true => rfl
      | false =>
        rw [hinit, hv] at h
        cases h
    | false =>
      rw [if_neg Bool.false_ne_true]
      split
      · exact ⟨by decide, by simp⟩
      · exact ⟨by decide, by simp⟩

/-- What holds of a part of a program in which nothing is wrong. -/
def Obliging : Parser.Part → Surroundings → Tree → Prop
  | .expression, _, _ => True
  | .method, above, t => ∀ u ∈ t.inner, StatementObeys (functionKind ((t, 2) :: above)) u
  | _, above, t => StatementObeys (functionKind above) t

theorem obliging_items {items : List Tree} (h : (list items).reports above = [])
    (ih : ∀ t ∈ items, ∀ above, t.reports above = [] → Obliging .declaration above t) :
    ∀ t ∈ items, StatementObeys (functionKind above) t := by
  intro t ht
  obtain ⟨i, hi⟩ := List.getElem?_of_mem ht
  exact (ih t ht _ (Resolver.silent_list h hi)).outside rfl

/-- The initializers of a class stand as initializers. -/
theorem obliging_class {name parent : Tree} {methods : List Tree}
    (hshaped : ∀ t ∈ methods, Shaped K .method t)
    (h : (list methods).reports ((classDecl name parent (list methods), 2) :: above) = [])
    (ih : ∀ t ∈ methods, ∀ above, t.reports above = [] → Obliging .method above t)
    (kind : Resolver.InFunction) : StatementObeys kind (classDecl name parent (list methods)) := by
  have inner {method : Tree} (hm : method ∈ methods) :
      ∃ j, Obliging .method ((list methods, j) :: (classDecl name parent (list methods), 2) :: above)
        method := by
    obtain ⟨j, hj⟩ := List.getElem?_of_mem hm
    exact ⟨j, ih method hm _ (Resolver.silent_list h hj)⟩
  refine ⟨obeys_iff.2 ⟨trivial, fun u hu => absurd hu List.not_mem_nil⟩,
    allObey_iff.2 ⟨fun method hm hinit u hu => ?_, fun method hm => ?_⟩⟩
  · obtain ⟨j, hmethod⟩ := inner hm
    have hobeys := (hmethod u hu).1
    obtain ⟨a, params, body, rfl, hlexeme⟩ := hinit
    unfold functionKind at hobeys
    rw [Resolver.innermost?_cons] at hobeys
    simp only [isFunction, if_true, Surroundings.isInitializer, hlexeme] at hobeys
    exact hobeys
  · obtain ⟨j, hmethod⟩ := inner hm
    cases hshaped method hm with
    | method => exact allObey_iff.2 ⟨trivial, fun u hu => (hmethod u hu).2⟩

/-- A part of a program without reports has nothing wrong in it. -/
theorem obliging_shaped {part : Parser.Part} (h : Shaped K part t) :
    ∀ above, t.reports above = [] → Obliging part above t := by
  induction h with
  | exprStmt | printStmt | emptyVar | varDecl | null =>
    exact fun above _ => statementObeys_leaf trivial trivial rfl rfl
  | block _ ih =>
    intro above h
    refine statementObeys_of_parts trivial trivial rfl fun u hu => ?_
    exact (obliging_items (Resolver.silent_one h rfl) ih u hu).outside rfl
  | ifOnly _ _ _ ih =>
    intro above h
    obtain ⟨-, ht, -⟩ := Resolver.silent_three h rfl
    refine statementObeys_of_parts trivial trivial rfl fun u hu => ?_
    obtain rfl | rfl := List.mem_pair.1 hu
    · exact (ih _ ht).outside rfl
    · exact statementObeys_leaf trivial trivial rfl rfl
  | ifElse _ _ _ _ iht ihe =>
    intro above h
    obtain ⟨-, ht, he⟩ := Resolver.silent_three h rfl
    refine statementObeys_of_parts trivial trivial rfl fun u hu => ?_
    obtain rfl | rfl := List.mem_pair.1 hu
    · exact (iht _ ht).outside rfl
    · exact (ihe _ he).outside rfl
  | whileLoop _ _ _ ih =>
    intro above h
    refine statementObeys_of_parts trivial trivial rfl fun u hu => ?_
    cases List.mem_singleton.1 hu
    exact (ih _ (Resolver.silent_two h rfl).2).outside rfl
  | emptyReturn hk | returnStmt hk =>
    intro above h
    obtain ⟨a, hk, -⟩ := hk
    rw [Resolver.reports_one rfl, List.append_eq_nil_iff] at h
    exact statementObeys_leaf (allowed_of_violations hk h.1) trivial rfl rfl
  | statement _ ih => exact ih
  | method _ _ _ ih =>
    exact fun above h => obliging_items (Resolver.silent_one h rfl) ih
  | funDecl hmethod ih =>
    intro above h
    have hinner := ih above h
    cases hmethod with
    | method =>
      exact ⟨obeys_iff.2 ⟨trivial, fun u hu => absurd hu List.not_mem_nil⟩,
        allObey_iff.2 ⟨trivial, fun u hu => (hinner u hu).2⟩⟩
  | rootClass _ hshaped ih | subclass _ _ hshaped ih =>
    exact fun above h => obliging_class hshaped (Resolver.silent_two h rfl).2 ih _
  | _ => exact fun _ _ => trivial

/-! ## Trees that differ in depths -/

theorem parts_bare (t : Tree) : t.bare.parts = t.parts.map bare := by
  cases t with
  | block slot =>
    cases slot with
    | list items => exact bareIn_eq items
    | _ => rfl
  | _ => rfl

theorem inner_bare (t : Tree) : t.bare.inner = t.inner.map bare := by
  cases t with
  | block slot | funDecl _ _ slot | classDecl _ _ slot =>
    cases slot with
    | list items => exact bareIn_eq items
    | _ => rfl
  | _ => rfl

variable {t' : Tree}

theorem exists_mem_of_bare (hf : ∀ t, f t.bare = (f t).map bare) (h : t'.bare = t.bare) {u' : Tree}
    (hu : u' ∈ f t') : ∃ u ∈ f t, u'.bare = u.bare := by
  have hmem := List.mem_map_of_mem (f := bare) hu
  rw [← hf, h, hf] at hmem
  obtain ⟨u, hu, hb⟩ := List.mem_map.1 hmem
  exact ⟨u, hu, hb.symm⟩

/-- A property that no depth changes, at all places below a tree. -/
theorem forall_of_bare (hf : ∀ t, f t.bare = (f t).map bare) {Q : Tree → Prop}
    (hQ : ∀ {t t' : Tree}, t'.bare = t.bare → Q t → Q t') (h : t'.bare = t.bare)
    (ht : ∀ u, Relation.ReflTransGen (fun t u => u ∈ f t) t u → Q u) :
    ∀ u', Relation.ReflTransGen (fun t u => u ∈ f t) t' u' → Q u' := by
  intro u' hu'
  obtain ⟨u, hu, hb⟩ : ∃ u, Relation.ReflTransGen (fun t u => u ∈ f t) t u ∧ u'.bare = u.bare := by
    induction hu' with
    | refl => exact ⟨t, .refl, h⟩
    | tail _ hstep ih =>
      obtain ⟨u, hu, hb⟩ := ih
      obtain ⟨w, hw, hb⟩ := exists_mem_of_bare hf hb hstep
      exact ⟨w, hu.tail hw, hb⟩
  exact hQ hb (ht u hu)

theorem Obeys.of_bare (h : t'.bare = t.bare) (ht : t.Obeys kind) : t'.Obeys kind := by
  refine forall_of_bare parts_bare (fun {t t'} h ht => ?_) h ht
  have hbare (t : Tree) : t.bare.Allowed kind ↔ t.Allowed kind := by
    cases t with
    | returnStmt => rw [bare, Allowed, Allowed, isNull_bare]
    | _ => exact Iff.rfl
  rwa [← hbare, h, hbare]

theorem isInitializer_iff : t.IsInitializer ↔ t.isFunction = true ∧
    ∃ a, t.nameSlot = .ok (.token a) ∧ a.lexeme = .str "init" := by
  constructor
  · rintro ⟨a, params, body, rfl, ha⟩
    exact ⟨rfl, a, rfl, ha⟩
  · rintro ⟨hf, a, hn, ha⟩
    cases t <;> cases hf
    cases hn
    exact ⟨a, _, _, rfl, ha⟩

theorem initializersObey_iff : t.InitializersObey ↔ (t.isClass = true →
    ∀ method ∈ t.inner, method.IsInitializer → ∀ u ∈ method.inner, u.Obeys .initializer) := by
  cases t with
  | classDecl name parent slot =>
    cases slot with
    | list methods => exact ⟨fun h _ => h, fun h => h rfl⟩
    | _ => exact ⟨fun _ _ _ hm => absurd hm List.not_mem_nil, fun _ => trivial⟩
  | _ => exact ⟨nofun, fun _ => trivial⟩

/-- Obeying does not depend on depths. -/
theorem AllObey.of_bare (h : t'.bare = t.bare) (ht : t.AllObey) : t'.AllObey := by
  refine forall_of_bare inner_bare (fun {t t'} h ht => ?_) h ht
  have hclass (t : Tree) : t.bare.isClass = t.isClass := by cases t <;> rfl
  have hinit (t : Tree) : t.bare.IsInitializer ↔ t.IsInitializer := by
    have hfun : t.bare.isFunction = t.isFunction := by cases t <;> rfl
    rw [isInitializer_iff, isInitializer_iff, hfun, nameSlot_bare]
  rw [initializersObey_iff] at ht ⊢
  intro hc method' hm' hi' u' hu'
  obtain ⟨method, hm, hb⟩ := exists_mem_of_bare inner_bare h hm'
  obtain ⟨u, hu, hb'⟩ := exists_mem_of_bare inner_bare hb hu'
  rw [← hclass, h, hclass] at hc
  rw [← hinit, hb, hinit] at hi'
  exact (ht hc method hm hi' u hu).of_bare hb'

end Tree

/-! ## Programs -/

/-- What the resolver reports of a program is placed at a token of it, or a statement is too
deep. -/
theorem placed_resolve (hK : Resolver.Named K) {ts : List Tree}
    (h : ∀ t ∈ ts, Shaped K .declaration t) {d : Diagnostic} (hd : d ∈ (resolve ts).problems) :
    (∃ t ∈ ts, ∃ a ∈ t.tokens, ∃ problem, d = .ofToken a problem) ∨ isTooDeep d = true := by
  obtain ⟨-, -, hall, -⟩ := exists_resolve hK h
  refine (hall d hd).imp_left fun hd => ?_
  obtain ⟨a, ha, problem, rfl⟩ := Tree.exists_token_of_reports hd
  rw [Tree.tokens_eq_children rfl] at ha
  obtain ⟨t, ht, ha⟩ := List.mem_flatMap.1 ha
  exact ⟨t, ht, a, ha, problem, rfl⟩

/-- In an accepted program all statements obey. -/
theorem Program.Accepted.obeys {q : Program} (h : q.Accepted) :
    ∀ t ∈ q.resolved, t.Obeys .none ∧ t.AllObey := by
  obtain ⟨source, -, hparse⟩ := h.parsed
  obtain ⟨s, hpasses, -⟩ := h.passes
  intro t ht
  have hmem := List.mem_map_of_mem (f := Tree.bare) ht
  rw [hpasses.bare_eq] at hmem
  obtain ⟨u, hu, hb⟩ := List.mem_map.1 hmem
  obtain ⟨hobeys, hall⟩ := Tree.obliging_items h.written.2
    (fun t ht => Tree.obliging_shaped (shaped_parse hparse t ht)) u hu
  exact ⟨hobeys.of_bare hb.symm, hall.of_bare hb.symm⟩

end LoxLang
