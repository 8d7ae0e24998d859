import LoxLang.Proofs.Twins

/-!
# Walks by name and jumps by distance

A forest of scopes is built by opening scopes and by binding and rebinding names in them. A name is
found by walking outwards to the nearest scope that binds it, or by jumping to the scope that is a
given number of steps out. Both ways agree when the number of steps is the least one that leads to a
scope with the name (`walk_eq_jump`): they give the same value, and an assignment has the same
effect. The links lead from a scope to an older one (`Falling`), so the walk is the list of all
jumps (`Falling.scopeAt_eq_ok_iff`).
-/

namespace LoxLang

/-- Equal keys are bound to the same value. -/
theorem Bindings.find?_congr {κ α : Type} [BEq κ] [PartialEquivBEq κ] (b : Bindings κ α)
    {key other : κ} (h : key == other) : b.find? key = b.find? other := by
  obtain ⟨entries⟩ := b
  simp only [find?]
  induction entries with
  | nil => rfl
  | cons e rest ih =>
    have hiff : (e.1 == key) = (e.1 == other) :=
      Bool.eq_iff_iff.2 ⟨fun hk => PartialEquivBEq.trans hk h,
        fun ho => PartialEquivBEq.trans ho (PartialEquivBEq.symm h)⟩
    unfold entry?
    rw [hiff, ih]

namespace Store

/-! ## Forests -/

/-- A change to a forest of scopes. -/
inductive Change where
  | new (enclosing : Option ScopeRef)
  | define (r : ScopeRef) (name : Name) (value : Value)
  | assign (r : ScopeRef) (name : Name) (line : Json) (value : Value)
  | assignAt (distance : Nat) (r : ScopeRef) (name : Name) (value : Value)

namespace Change

/-- The scope that the change starts from, if any, is there. -/
def Applies (s : Store) : Change → Prop
  | new none => True
  | new (some r) | define r _ _ | assign r _ _ _ | assignAt _ r _ _ => r.index < s.scopes.size

/-- The forest after a change. One that fails changes nothing. -/
def apply (s : Store) : Change → Store
  | new enclosing => (s.addScope enclosing).2
  | define r name value => s.define r name value
  | assign r name line value =>
    match s.assign r name line value with
    | .ok s' => s'
    | .error _ => s
  | assignAt distance r name value =>
    match s.assignAt distance r name value with
    | .ok s' => s'
    | .error _ => s

end Change

/-- The store's scopes were made by changes, one after the other. -/
inductive Forest : Store → Prop where
  | bare {s : Store} : s.scopes = #[] → Forest s
  | change {s : Store} {c : Change} : Forest s → c.Applies s → Forest (c.apply s)

/-- Every scope is younger than the one around it. -/
def Falling (s : Store) : Prop :=
  ∀ ⦃r e : ScopeRef⦄, s.enclosing? r = some e → e.index < r.index

variable {s s' : Store} {r q a : ScopeRef} {name other : Name} {d : Nat} {v : Value}

theorem Falling.define (h : s.Falling) (r : ScopeRef) (name : Name) (v : Value) :
    (s.define r name v).Falling := by
  intro q e he
  rw [enclosing?_define] at he
  exact h he

/-- A new scope is inside an older one. -/
theorem Falling.addScope (h : s.Falling) {e : Option ScopeRef}
    (he : ∀ r, e = some r → r.index < s.scopes.size) : (s.addScope e).2.Falling := by
  intro q a ha
  rcases Nat.lt_trichotomy q.index s.scopes.size with hq | hq | hq
  · rw [(grows_addScope s e).enclosing hq] at ha
    exact h ha
  · obtain rfl : q = ⟨s.scopes.size⟩ := by
      cases q
      simpa using hq
    rw [enclosing?_addScope_self] at ha
    exact he a ha
  · rw [enclosing?_eq_none_of_size_le (by rw [size_addScope]; exact hq)] at ha
    cases ha

/-- What an assignment by name does is to bind the name in some scope. -/
theorem exists_define_of_assign {line : Json} (h : s.assign r name line v = .ok s') :
    ∃ a, s' = s.define a name v := by
  unfold assign at h
  cases hh : s.holder r name line with
  | error e => cases hh ▸ h
  | ok a =>
    rw [hh] at h
    cases h
    exact ⟨a, rfl⟩

theorem exists_define_of_assignAt (h : s.assignAt d r name v = .ok s') :
    ∃ a, s' = s.define a name v := by
  unfold assignAt at h
  split at h
  · cases h
  · rename_i a _
    cases h
    exact ⟨a, rfl⟩

/-- A change of the store keeps its links falling. -/
theorem Falling.apply (h : s.Falling) {c : Change} (hc : c.Applies s) : (c.apply s).Falling := by
  cases c with
  | new enclosing =>
    refine h.addScope ?_
    rintro r rfl
    exact hc
  | define r name v => exact h.define r name v
  | assign r name line v =>
    cases hs : s.assign r name line v with
    | error e => simpa only [Change.apply, hs] using h
    | ok s' =>
      obtain ⟨a, rfl⟩ := exists_define_of_assign hs
      simpa only [Change.apply, hs] using h.define a name v
  | assignAt d r name v =>
    cases hs : s.assignAt d r name v with
    | error e => simpa only [Change.apply, hs] using h
    | ok s' =>
      obtain ⟨a, rfl⟩ := exists_define_of_assignAt hs
      simpa only [Change.apply, hs] using h.define a name v

theorem Forest.falling (h : s.Forest) : s.Falling := by
  induction h with
  | bare hs =>
    intro r e he
    rw [enclosing?_eq_none_of_size_le (by simp [hs])] at he
    cases he
  | change _ hc ih => exact ih.apply hc

/-! ## Jumps along a walk -/

/-- The scope some steps out is that place of the walk. -/
theorem Falling.scopeAt_eq_ok_iff (h : s.Falling) :
    s.scopeAt d r = .ok a ↔ (s.chain r)[d]? = some a := by
  refine ⟨fun ha => ?_, scopeAt_of_chain⟩
  induction d generalizing r with
  | zero =>
    cases ha
    rw [chain_eq]
    rfl
  | succ d ih =>
    rw [chain_eq]
    cases he : s.enclosing? r with
    | none =>
      rw [scopeAt_succ_of_none he] at ha
      cases ha
    | some e =>
      rw [scopeAt_succ_of_some he] at ha
      simp only [h he, if_true, List.getElem?_cons_succ]
      exact ih ha

/-- The scope some steps out binds the name, and none on the way to it does. -/
structure Nearest (s : Store) (r : ScopeRef) (name : Name) (d : Nat) (a : ScopeRef) : Prop where
  reached : s.scopeAt d r = .ok a
  bound : (s.bound? a name).isSome
  least : ∀ d' < d, ∀ a', s.scopeAt d' r = .ok a' → s.bound? a' name = none

/-- The scope that holds a name is the nearest one that binds it. -/
theorem Falling.holder?_eq_some_iff (h : s.Falling) :
    s.holder? r name = some a ↔ ∃ d, s.Nearest r name d a := by
  unfold holder?
  rw [List.find?_eq_some_iff_getElem]
  constructor
  · rintro ⟨hb, d, hd, ha, hleast⟩
    refine ⟨d, h.scopeAt_eq_ok_iff.2 (List.getElem?_eq_some_iff.2 ⟨hd, ha⟩), hb, ?_⟩
    intro d' hlt a' ha'
    obtain ⟨hd', rfl⟩ := List.getElem?_eq_some_iff.1 (h.scopeAt_eq_ok_iff.1 ha')
    simpa using hleast d' hlt
  · rintro ⟨d, hreach, hb, hleast⟩
    obtain ⟨hd, ha⟩ := List.getElem?_eq_some_iff.1 (h.scopeAt_eq_ok_iff.1 hreach)
    refine ⟨hb, d, hd, ha, fun d' hlt => ?_⟩
    have hd' : d' < (s.chain r).length := Nat.lt_trans hlt hd
    have hnone := hleast d' hlt _ (h.scopeAt_eq_ok_iff.2 (List.getElem?_eq_getElem hd'))
    simp [hnone]

theorem Falling.holder?_eq_none (h : s.Falling)
    (hnone : ∀ d a, s.scopeAt d r = .ok a → s.bound? a name = none) : s.holder? r name = none := by
  refine List.find?_eq_none.2 fun a ha => ?_
  obtain ⟨d, hd⟩ := List.getElem?_of_mem ha
  simp [hnone d a (h.scopeAt_eq_ok_iff.2 hd)]

/-- What a name is bound to is what its holder binds it to. -/
theorem lookup?_eq_holder? (s : Store) (r : ScopeRef) (name : Name) :
    s.lookup? r name = (s.holder? r name).bind (s.bound? · name) := by
  unfold lookup? holder?
  induction s.chain r with
  | nil => rfl
  | cons q rs ih =>
    rw [List.findSome?_cons, List.find?_cons]
    cases hb : s.bound? q name with
    | none => simp [ih]
    | some v => simp [hb]

/-! ## Rebinding a name -/

theorem bound?_congr (h : name == other) (q : ScopeRef) : s.bound? q name = s.bound? q other :=
  Bindings.find?_congr _ h

theorem index_lt_of_bound (h : (s.bound? a name).isSome) : a.index < s.scopes.size := by
  by_contra hle
  simp [bound?, scope, Array.getD_eq_getD_getElem?, Nat.le_of_not_lt hle] at h

/-- Rebinding a name in a scope that binds it keeps the holder of each name. -/
theorem holder?_define (h : (s.bound? a name).isSome) (q : ScopeRef) (other : Name) :
    (s.define a name v).holder? q other = s.holder? q other := by
  unfold holder?
  rw [chain_define]
  refine List.find?_congr fun b _ => ?_
  rw [bound?_define s (index_lt_of_bound h)]
  split
  · rename_i hc
    obtain ⟨rfl, heq⟩ := hc
    rw [← bound?_congr heq, h, Option.isSome_some]
  · rfl

theorem scopeAt_define (d : Nat) (q : ScopeRef) :
    (s.define a name v).scopeAt d q = s.scopeAt d q := by
  induction d generalizing q with
  | zero => rfl
  | succ d ih =>
    have he' := enclosing?_define s a q name v
    cases he : s.enclosing? q with
    | none => rw [scopeAt_succ_of_none he, scopeAt_succ_of_none (he'.trans he)]
    | some e => rw [scopeAt_succ_of_some he, scopeAt_succ_of_some (he'.trans he), ih]

/-- The name in the scope becomes bound to the value, and nothing else changes. All walks that find
the name there, and all jumps to it, see the new value, and no others do. -/
structure Rebinds (s s' : Store) (a : ScopeRef) (name : Name) (v : Value) : Prop where
  rest : s' = { s with scopes := s'.scopes }
  size : s'.scopes.size = s.scopes.size
  links : ∀ q, s'.enclosing? q = s.enclosing? q
  bindings : ∀ q other,
    s'.bound? q other = if a = q ∧ name == other then some v else s.bound? q other
  seen : ∀ {q other d}, name == other → s.Nearest q other d a →
    ∀ line, s'.lookup q other line = .ok v
  unseen : ∀ {q other}, ¬(name == other ∧ ∃ d, s.Nearest q other d a) →
    ∀ line, s'.lookup q other line = s.lookup q other line
  seenAt : ∀ {q other d}, name == other → s.scopeAt d q = .ok a → s'.lookupAt d q other = .ok v
  unseenAt : ∀ {q other d}, ¬(name == other ∧ s.scopeAt d q = .ok a) →
    s'.lookupAt d q other = s.lookupAt d q other

/-- An assignment changes one name of one scope. -/
theorem Falling.rebinds_define (h : s.Falling) (hb : (s.bound? a name).isSome) (v : Value) :
    s.Rebinds (s.define a name v) a name v where
  rest := rfl
  size := size_define ..
  links q := enclosing?_define s a q name v
  bindings := bound?_define s (index_lt_of_bound hb) name v
  seen {q other d} heq hn line := by
    unfold lookup
    rw [lookup?_eq_holder?, holder?_define hb, h.holder?_eq_some_iff.2 ⟨d, hn⟩, Option.bind_some,
      bound?_define s (index_lt_of_bound hb), if_pos ⟨rfl, heq⟩]
  unseen {q other} hne line := by
    unfold lookup
    rw [lookup?_eq_holder?, holder?_define hb, lookup?_eq_holder?]
    cases hh : s.holder? q other with
    | none => rfl
    | some b =>
      have hc : ¬(a = b ∧ name == other) := by
        rintro ⟨rfl, heq⟩
        exact hne ⟨heq, h.holder?_eq_some_iff.1 hh⟩
      rw [Option.bind_some, bound?_define s (index_lt_of_bound hb), if_neg hc, Option.bind_some]
  seenAt {q other d} heq hreach := by
    unfold lookupAt
    rw [scopeAt_define, hreach]
    dsimp only
    rw [bound?_define s (index_lt_of_bound hb), if_pos ⟨rfl, heq⟩]
  unseenAt {q other d} hne := by
    unfold lookupAt
    rw [scopeAt_define]
    cases hreach : s.scopeAt d q with
    | error fault => rfl
    | ok b =>
      have hc : ¬(a = b ∧ name == other) := by
        rintro ⟨rfl, heq⟩
        exact hne ⟨heq, hreach⟩
      dsimp only
      rw [bound?_define s (index_lt_of_bound hb), if_neg hc]

/-- In a forest, a walk by name does what the jump to the nearest scope with the name does. Where no
scope on the way out binds the name, looking it up and assigning to it fail at the given line, and
nothing changes. -/
theorem walk_eq_jump (h : s.Forest) (r : ScopeRef) (name : Name) :
    (∀ d a, s.Nearest r name d a →
      (∃ v, s.bound? a name = some v ∧ s.lookupAt d r name = .ok v ∧
        ∀ line, s.lookup r name line = .ok v) ∧
      ∀ v, ∃ s', s.assignAt d r name v = .ok s' ∧ (∀ line, s.assign r name line v = .ok s') ∧
        s.Rebinds s' a name v) ∧
    ((∀ d a, s.scopeAt d r = .ok a → s.bound? a name = none) → ∀ line,
      s.lookup r name line = .error ⟨.undefinedVariable name.text, line⟩ ∧
      ∀ v, s.assign r name line v = .error ⟨.undefinedVariable name.text, line⟩ ∧
        (Change.assign r name line v).apply s = s) := by
  constructor
  · intro d a hn
    have hholder := h.falling.holder?_eq_some_iff.2 ⟨d, hn⟩
    obtain ⟨v, hv⟩ := Option.isSome_iff_exists.1 hn.bound
    refine ⟨⟨v, hv, ?_, fun line => ?_⟩, fun w => ⟨s.define a name w, ?_, fun line => ?_,
      h.falling.rebinds_define hn.bound w⟩⟩
    · simp only [lookupAt, hn.reached, hv]
    · simp only [lookup, lookup?_eq_holder?, hholder, Option.bind_some, hv]
    · simp only [assignAt, hn.reached]
    · simp only [assign, holder, hholder, Except.map]
  · intro hnone line
    have hholder := h.falling.holder?_eq_none hnone
    have hassign : ∀ v, s.assign r name line v = .error (undefined name line) := by
      intro v
      simp only [assign, holder, hholder, Except.map]
    refine ⟨?_, fun v => ⟨hassign v, ?_⟩⟩
    · simp only [lookup, lookup?_eq_holder?, hholder, Option.bind_none, undefined]
    · simp only [Change.apply, hassign]

/-- Two scopes around which one scope stands that binds `x`. The second binds `x` too, and a scope
stands in the first. -/
def sharedScopes : Store :=
  [.new none, .define ⟨0⟩ "x" (.scalar (.str "outer")), .new (some ⟨0⟩), .new (some ⟨0⟩),
    .define ⟨2⟩ "x" (.scalar (.str "own")), .new (some ⟨1⟩)].foldl (fun s c => Change.apply s c) {}

theorem sharedScopes_forest : sharedScopes.Forest := by
  simp only [sharedScopes, List.foldl_cons, List.foldl_nil]
  refine .change (.change (.change (.change (.change (.change (.bare rfl) ?_) ?_) ?_) ?_) ?_) ?_
  · trivial
  all_goals exact Nat.le_of_ble_eq_true rfl

/-- An assignment from the innermost scope is seen from the scope around it and not from the one
that has its own `x`. No scope binds `y`. -/
theorem walk_eq_jump_shared :
    sharedScopes.Forest ∧ sharedScopes.Nearest ⟨3⟩ "x" 2 ⟨0⟩ ∧
    (∃ s', sharedScopes.assign ⟨3⟩ "x" (.int 1) (.scalar (.str "new")) = .ok s' ∧
      s'.lookup ⟨1⟩ "x" (.int 2) = .ok (.scalar (.str "new")) ∧
      s'.lookup ⟨2⟩ "x" (.int 2) = sharedScopes.lookup ⟨2⟩ "x" (.int 2)) ∧
    sharedScopes.lookup ⟨3⟩ "y" (.int 3) = .error ⟨.undefinedVariable "y", .int 3⟩ := by
  have hnear : sharedScopes.Nearest ⟨3⟩ "x" 2 ⟨0⟩ := by
    refine ⟨rfl, rfl, fun d hd a ha => ?_⟩
    rcases d with _ | _ | d
    · cases ha
      rfl
    · cases ha
      rfl
    · omega
  have hside : sharedScopes.Nearest ⟨1⟩ "x" 1 ⟨0⟩ := by
    refine ⟨rfl, rfl, fun d hd a ha => ?_⟩
    obtain rfl : d = 0 := by omega
    cases ha
    rfl
  have hown : ¬∃ d, sharedScopes.Nearest ⟨2⟩ "x" d ⟨0⟩ := by
    rintro ⟨d, hn⟩
    rcases d with _ | d
    · cases hn.reached
    · cases hn.least 0 (Nat.succ_pos d) _ rfl
  have hfree : ∀ d a, sharedScopes.scopeAt d ⟨3⟩ = .ok a → sharedScopes.bound? a "y" = none := by
    intro d a ha
    rcases d with _ | _ | _ | d
    · cases ha
      rfl
    · cases ha
      rfl
    · cases ha
      rfl
    · rw [scopeAt_succ_of_some rfl, scopeAt_succ_of_some rfl, scopeAt_succ_of_none rfl] at ha
      cases ha
  obtain ⟨s', -, hassign, hs'⟩ :=
    ((walk_eq_jump sharedScopes_forest ⟨3⟩ "x").1 2 ⟨0⟩ hnear).2 (.scalar (.str "new"))
  exact ⟨sharedScopes_forest, hnear,
    ⟨s', hassign _, hs'.seen rfl hside _, hs'.unseen (fun h => hown h.2) _⟩,
    ((walk_eq_jump sharedScopes_forest ⟨3⟩ "y").2 hfree _).1⟩

end Store

end LoxLang
