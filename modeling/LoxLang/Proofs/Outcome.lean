/-!
# How computations end

The parser, the resolver, the machine and a session all run in a state that a failure keeps. `Ends`
says of a computation what holds where it gives a result, and what holds where it stops early. One
rule for each way to build a computation is all that later proofs need of the monad.

A computation may keep a record in its state that no result depends on. `Erases` says that without
the record it is another computation.
-/

namespace LoxLang

variable {ε σ α β : Type}

/-- Run from `s`, the computation gives a result with `Q`, or stops early with `E`. -/
def Ends (x : EStateM ε σ α) (s : σ) (Q : α → σ → Prop) (E : ε → σ → Prop) : Prop :=
  match x s with
  | .ok a s' => Q a s'
  | .error e s' => E e s'

variable {a : α} {s' s : σ} {e : ε}

namespace Ends

variable {x : EStateM ε σ α} {f : α → EStateM ε σ β} {s : σ} {P Q : α → σ → Prop}
  {R : β → σ → Prop} {E E' : ε → σ → Prop}

theorem of_ok (h : x s = .ok a s') (hQ : Q a s') : Ends x s Q E := by
  unfold Ends
  rw [h]
  exact hQ

theorem of_error (h : x s = .error e s') (hE : E e s') : Ends x s Q E := by
  unfold Ends
  rw [h]
  exact hE

theorem ok (h : Ends x s Q E) (hx : x s = .ok a s') : Q a s' := by
  unfold Ends at h
  rw [hx] at h
  exact h

theorem error {e : ε} {s' : σ} (h : Ends x s Q E) (hx : x s = .error e s') : E e s' := by
  unfold Ends at h
  rw [hx] at h
  exact h

/-- What holds where a computation ends may be weakened. -/
theorem imp (h : Ends x s P E) (hQ : ∀ a s', P a s' → Q a s') (hE : ∀ e s', E e s' → E' e s') :
    Ends x s Q E' := by
  cases hx : x s with
  | ok a s' => exact of_ok hx (hQ a s' (h.ok hx))
  | error e s' => exact of_error hx (hE e s' (h.error hx))

/-- The rule of sequence. -/
theorem bind (hx : Ends x s P E) (hf : ∀ a s', P a s' → Ends (f a) s' R E) :
    Ends (x >>= f) s R E := by
  unfold Ends at hx
  show Ends (EStateM.bind x f) s R E
  unfold Ends EStateM.bind
  cases h : x s with
  | ok a s' =>
    rw [h] at hx
    exact hf a s' hx
  | error e s' =>
    rw [h] at hx
    exact hx

/-- A step with a known result, and what follows. -/
theorem step (hx : x s = .ok a s') (hf : Ends (f a) s' R E) : Ends (x >>= f) s R E := by
  refine (of_ok (Q := fun b t => b = a ∧ t = s') hx ⟨rfl, rfl⟩).bind ?_
  rintro _ _ ⟨rfl, rfl⟩
  exact hf

theorem pure (h : Q a s) : Ends (Pure.pure a) s Q E := h

theorem throw (h : E e s) : Ends (MonadExcept.throw e : EStateM ε σ α) s Q E := h

theorem map {g : α → β} (h : Ends x s (fun a s' => R (g a) s') E) : Ends (g <$> x) s R E := by
  show Ends (EStateM.map g x) s R E
  unfold Ends EStateM.map at *
  cases hx : x s with
  | ok a s' =>
    rw [hx] at h
    exact h
  | error e s' =>
    rw [hx] at h
    exact h

end Ends

theorem ends_modify {g : σ → σ} {Q : PUnit → σ → Prop} {E : ε → σ → Prop} (h : Q ⟨⟩ (g s)) :
    Ends (modify g : EStateM ε σ PUnit) s Q E := h

variable {x : EStateM ε σ α} {f : α → EStateM ε σ β}

/-- A sequence that gives a result gives one at each step. -/
theorem bind_eq_ok {s'' : σ} {b : β} :
    (x >>= f) s = .ok b s'' ↔ ∃ a s', x s = .ok a s' ∧ f a s' = .ok b s'' := by
  show EStateM.bind x f s = .ok b s'' ↔ _
  unfold EStateM.bind
  cases x s with
  | ok a s' =>
    constructor
    · intro h
      exact ⟨a, s', rfl, h⟩
    · rintro ⟨a', t, h, hf⟩
      cases h
      exact hf
  | error e s' => simp

theorem bind_of_ok (h : x s = .ok a s') : (x >>= f) s = f a s' := by
  show EStateM.bind x f s = _
  unfold EStateM.bind
  rw [h]

theorem bind_of_error (h : x s = .error e s') : (x >>= f) s = .error e s' := by
  show EStateM.bind x f s = _
  unfold EStateM.bind
  rw [h]

/-! ## States -/

/-- The state that a computation leaves, however it ends. -/
def stateAfter (x : EStateM ε σ α) (s : σ) : σ :=
  match x s with
  | .ok _ s' => s'
  | .error _ s' => s'

/-- What holds however a computation ends holds of the state that it leaves. -/
theorem Ends.stateAfter {x : EStateM ε σ α} {s : σ} {I : σ → Prop}
    (h : Ends x s (fun _ => I) fun _ => I) : I (stateAfter x s) := by
  unfold Ends at h
  unfold LoxLang.stateAfter
  cases hx : x s with
  | ok a s' | error e s' =>
    rw [hx] at h
    exact h

/-! ## Records -/

variable {y : EStateM ε σ α}

section Erases

variable {σ' : Type} {view : σ' → σ}

/-- A result with a view of its state. -/
def seen (view : σ' → σ) : EStateM.Result ε σ' α → EStateM.Result ε σ α
  | .ok a s => .ok a (view s)
  | .error e s => .error e (view s)

/-- With the view of its state alone, the first computation is the second one. -/
def Erases (view : σ' → σ) (x : EStateM ε σ' α) (y : EStateM ε σ α) : Prop :=
  ∀ s, seen view (x s) = y (view s)

theorem Erases.stateAfter {x : EStateM ε σ' α} {y : EStateM ε σ α} (h : Erases view x y) (s : σ') :
    view (stateAfter x s) = LoxLang.stateAfter y (view s) := by
  unfold LoxLang.stateAfter
  rw [← h s]
  cases x s <;> rfl

/-- What holds of the computation with the record holds without it. -/
theorem Erases.ends {x : EStateM ε σ' α} (h : Erases view x y) {s : σ'} {Q : α → σ → Prop}
    {E : ε → σ → Prop} (hx : Ends x s (fun a s' => Q a (view s')) fun e s' => E e (view s')) :
    Ends y (view s) Q E := by
  unfold Ends at hx ⊢
  rw [← h s]
  cases hs : x s with
  | ok a s' | error e s' =>
    rw [hs] at hx
    exact hx

theorem erases_pure (a : α) : Erases view (pure a : EStateM ε σ' α) (pure a) :=
  fun _ => rfl

theorem erases_throw (e : ε) : Erases view (throw e : EStateM ε σ' α) (throw e) :=
  fun _ => rfl

/-- The view of two steps is the two steps of the view. -/
theorem Erases.bind {x : EStateM ε σ' α} {f : α → EStateM ε σ' β} {g : α → EStateM ε σ β}
    (hx : Erases view x y) (hf : ∀ a, Erases view (f a) (g a)) :
    Erases view (x >>= f) (y >>= g) := by
  intro s
  have h := hx s
  cases hs : x s with
  | ok a s' =>
    rw [hs] at h
    rw [bind_of_ok hs, bind_of_ok h.symm]
    exact hf a s'
  | error e s' =>
    rw [hs] at h
    rw [bind_of_error hs, bind_of_error h.symm]
    rfl

/-- A step that the view does not show. -/
theorem Erases.silent {h : σ' → σ'} {f : Unit → EStateM ε σ' β} {y : EStateM ε σ β}
    (hh : ∀ s, view (h s) = view s) (hf : Erases view (f ()) y) :
    Erases view (modify h >>= f) y := by
  intro s
  rw [← hh s]
  exact hf (h s)

/-- A look at the whole state. -/
theorem Erases.look {f : σ' → EStateM ε σ' β} {y : EStateM ε σ β}
    (hf : ∀ s, Erases view (f s) y) : Erases view (get >>= f) y :=
  fun s => hf s s

end Erases

end LoxLang
