import LoxLang.Proofs.Agreement
import LoxLang.Proofs.AlikeSessions

/-!
# Depths

The resolver writes the depths of uses into a program and changes nothing else, and which depths a
program had before does not matter to it (`walks_bare`). `Passes` says that the statements of a
program are walked to their end, one after the other. Programs that differ only in depths pass alike
(`Passes.congr`), and a resolved program is resolved to itself (`Passes.resolved`).
-/

namespace LoxLang

namespace Tree

theorem nameSlot_bare (t : Tree) : t.bare.nameSlot = t.nameSlot := by
  cases t <;> rfl

theorem nameToken_bare (t : Tree) : t.bare.nameToken = t.nameToken := by
  unfold nameToken
  rw [nameSlot_bare]

end Tree

namespace Resolver

/-! ## Depths that are there before -/

variable {walk : Tree → Resolve Tree} {s s' : State} {t : Tree}

theorem eachFrom_bare (h : ∀ t, walk t.bare = walk t) (items : List Tree) :
    ∀ done, eachFrom walk done (items.map Tree.bare) = eachFrom walk done items := by
  induction items with
  | nil => exact fun _ => rfl
  | cons t items ih =>
    intro done
    simp only [List.map_cons, eachFrom, h, ih]

theorem eachOf_bare (h : ∀ t, walk t.bare = walk t) (slot : Tree) :
    eachOf walk slot.bare = eachOf walk slot := by
  cases slot with
  | list items =>
    show (eachFrom walk [] (Tree.bareIn items) >>= _) = _
    rw [Tree.bareIn_eq, eachFrom_bare h]
    rfl
  | _ => rfl

theorem optional_bare (h : ∀ t, walk t.bare = walk t) (t : Tree) :
    optional walk t.bare = optional walk t := by
  unfold optional
  rw [Tree.isNull_bare, h]
  split
  · next ht =>
    rw [Tree.eq_null_of_isNull ht]
    rfl
  · rfl

theorem expression_bare : ∀ (room : Nat) (t : Tree), expression room t.bare = expression room t
  | 0, _ => rfl
  | room + 1, t => by
    have ih := expression_bare room
    cases t <;> simp only [Tree.bare, expression, ih, eachOf_bare ih] <;> rfl

theorem routine_bare {body : Tree → Resolve Tree} (h : ∀ t, body t.bare = body t)
    (kind : InFunction) (t : Tree) : routine body kind t.bare = routine body kind t := by
  cases t with
  | funDecl name params statements =>
    unfold routine
    simp only [Tree.bare, Tree.routineSlots, lift, pure_bind, h]
  | _ => rfl

theorem method_bare {routine : InFunction → Tree → Resolve Tree}
    (h : ∀ kind t, routine kind t.bare = routine kind t) (t : Tree) :
    method routine t.bare = method routine t := by
  unfold method
  simp only [Tree.nameToken_bare, h]

theorem superclass_bare (h : ∀ t, walk t.bare = walk t) (name parent : Tree) :
    superclass walk name parent.bare = superclass walk name parent := by
  unfold superclass
  simp only [Tree.isNull_bare, Tree.nameToken_bare, Tree.nameSlot_bare, h]
  split
  · next ht =>
    rw [Tree.eq_null_of_isNull ht]
    rfl
  · rfl

theorem classBody_bare {method : Tree → Resolve Tree} (h : ∀ t, walk t.bare = walk t)
    (hm : ∀ t, method t.bare = method t) (name parent methods : Tree) :
    classBody walk method name parent.bare methods.bare =
      classBody walk method name parent methods := by
  unfold classBody
  simp only [Tree.isNull_bare, superclass_bare h, eachOf_bare hm]

/-- What depths a statement has before it is resolved does not matter. -/
theorem walks_bare (room : Nat) :
    (∀ t, statement room t.bare = statement room t) ∧ (∀ t, body room t.bare = body room t) ∧
    (∀ kind t, routineRule room kind t.bare = routineRule room kind t) ∧
    ∀ name parent methods : Tree, classRule room name parent.bare methods.bare =
      classRule room name parent methods := by
  induction room with
  | zero =>
    refine ⟨fun t => ?_, fun t => ?_, fun kind t => ?_, fun name parent methods => ?_⟩
    · rw [statement, statement]
    · rw [body, body]
    · rw [routineRule, routineRule]
    · rw [classRule, classRule]
  | succ room ih =>
    obtain ⟨hstatement, hbody, hroutine, hclass⟩ := ih
    have hexpression := expression_bare room
    refine ⟨fun t => ?_, fun t => ?_, fun kind t => ?_, fun name parent methods => ?_⟩
    · cases t with
      | funDecl name params statements =>
        have := hroutine .function (.funDecl name params statements)
        simp only [Tree.bare, statement] at this ⊢
        rw [this]
      | returnStmt keyword value =>
        simp only [Tree.bare, statement, checkReturn, Tree.isNull_bare, optional_bare hexpression]
      | block | varDecl | classDecl | exprStmt | printStmt | ifElse | whileLoop =>
        simp only [Tree.bare, statement, hbody, hexpression, hclass, hstatement,
          optional_bare hexpression, optional_bare hstatement]
      | _ => rfl
    · unfold body
      exact eachOf_bare (optional_bare hstatement) t
    · unfold routineRule
      exact routine_bare hbody kind t
    · unfold classRule
      exact classBody_bare hexpression (method_bare hroutine) name parent methods

/-! ## Programs -/

/-- The statements are walked to their end, one after the other. -/
inductive Passes (room : Nat) : State → List Tree → List Tree → State → Prop where
  | nil {s : State} : Passes room s [] [] s
  | cons {s s₁ s₂ : State} {t u : Tree} {ts us : List Tree} :
      statement room t s = .ok u s₁ → Passes room s₁ ts us s₂ → Passes room s (t :: ts) (u :: us) s₂

namespace Passes

variable {room : Nat} {s₁ s₂ : State} {ts us ts' us' : List Tree}

theorem append (h : Passes room s ts us s₁) (h' : Passes room s₁ ts' us' s₂) :
    Passes room s (ts ++ ts') (us ++ us') s₂ := by
  induction h with
  | nil => exact h'
  | cons ht _ ih => exact .cons ht (ih h')

/-- The resolver changes nothing but depths. -/
theorem bare_eq (h : Passes room s ts us s₁) : us.map Tree.bare = ts.map Tree.bare := by
  induction h with
  | nil => rfl
  | cons ht _ ih =>
    rw [List.map_cons, List.map_cons, ih, (((arrives_walks room).1 _ _ _ rfl).ok ht).2.bare]

/-- What depths a program has before it is resolved does not matter. -/
theorem congr (h : Passes room s ts us s₁) (hb : ts'.map Tree.bare = ts.map Tree.bare) :
    Passes room s ts' us s₁ := by
  induction h generalizing ts' with
  | nil =>
    rw [List.map_nil, List.map_eq_nil_iff] at hb
    rw [hb]
    exact .nil
  | @cons s s₁ s₂ t u ts us ht _ ih =>
    rw [List.map_cons, List.map_eq_cons_iff] at hb
    obtain ⟨t', ts', rfl, hb, hrest⟩ := hb
    refine .cons ?_ (ih hrest)
    rw [← (walks_bare room).1, hb, (walks_bare room).1]
    exact ht

/-- A resolved program is resolved to itself. -/
theorem resolved (h : Passes room s ts us s₁) : Passes room s us us s₁ :=
  h.congr h.bare_eq

end Passes

/-- A program in which nothing is reported is walked statement by statement. -/
theorem passes_of_program {room : Nat} {s₁ : State} : ∀ {ts done out : List Tree} {s : State},
    (∀ t ∈ ts, WellFormed .statement t) → (∀ t ∈ ts, ReportsEntry t) → s.standing = .outside →
    eachFrom (optional (topLevel room)) done ts s = .ok out s₁ → s₁.problems = #[] →
    s.problems = #[] ∧ ∃ us, out = done.reverse ++ us ∧ Passes room s ts us s₁
  | [], done, out, s, _, _, _, h, hp => by
    cases h
    exact ⟨hp, [], by simp, .nil⟩
  | t :: ts, done, out, s, hts, hentries, hs, h, hp => by
    obtain ⟨ht, hrest⟩ := List.forall_mem_cons.1 hts
    obtain ⟨hentry, hmore⟩ := List.forall_mem_cons.1 hentries
    obtain ⟨u, s', hx, h⟩ := bind_eq_ok.1 h
    obtain ⟨hs', hback⟩ := hentry.topLevel hs hx
    obtain ⟨hp', us, rfl, hpasses⟩ := passes_of_program hrest hmore hs' h hp
    unfold optional at hx
    rw [ht.formed.isNull_eq] at hx
    exact ⟨hback hp', u :: us, by simp, .cons (topLevel_eq_ok hx hp') hpasses⟩

/-- A list that is passed statement by statement is a program that is resolved. -/
theorem program_of_passes {room : Nat} {s₁ : State} {ts us : List Tree}
    (h : Passes room s ts us s₁) : (∀ t ∈ ts, t.isNull = false) → ∀ done,
      eachFrom (optional (topLevel room)) done ts s = .ok (done.reverse ++ us) s₁ := by
  induction h with
  | nil =>
    intro _ done
    rw [List.append_nil]
    rfl
  | @cons s s₁ s₂ t u ts us ht _ ih =>
    intro hnull done
    obtain ⟨htn, hrest⟩ := List.forall_mem_cons.1 hnull
    have hx : optional (topLevel room) t s = .ok u s₁ := by
      unfold optional
      rw [htn, if_neg Bool.false_ne_true]
      unfold topLevel
      rw [ht]
    rw [eachFrom, bind_of_ok hx, ih hrest]
    simp

end Resolver

open Resolver (Passes)

theorem resolve_of_passes {ts us : List Tree} {s : Resolver.State}
    (h : Passes Tree.maxDepth {} ts us s) (hts : ∀ t ∈ ts, t.isNull = false)
    (hp : s.problems = #[]) :
    (resolve ts).statements = .ok us ∧ (resolve ts).problems = [] := by
  have hx : Resolver.program Tree.maxDepth ts {} = .ok us s := Resolver.program_of_passes h hts []
  unfold resolve
  rw [hx]
  exact ⟨rfl, by simp [hp]⟩

theorem Program.Accepted.passes {q : Program} (h : q.Accepted) :
    ∃ s, Passes Tree.maxDepth {} q.parsed q.resolved s ∧ s.problems = #[] := by
  obtain ⟨s, hx, hp⟩ := h.resolved_eq
  obtain ⟨-, us, rfl, hpasses⟩ := Resolver.passes_of_program h.wellFormed h.entries rfl hx hp
  exact ⟨s, hpasses, hp⟩

end LoxLang
