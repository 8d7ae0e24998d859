import LoxLang.Proofs.Depths

/-!
# Sessions that are left astray

A step of a session that meets a malformed tree is given up. Blocks and calls are left on the way
out, so the session goes on in its globals. The one thing that is not undone is the scope of `super`
which a class enters by hand: if one of its methods has no name, the session stays in it, and what
the next program declares goes there (`scope_lost`).

`Stalls` says when a statement comes to such a class, and a run is stopped in the scope of `super`
exactly then (`Launch.settles_step`). Whether it can happen is read off the program
(`Launch.strands`): numbering the literals of a tree and resolving its names keep what decides it,
and what the parser gives never strands. All other runs leave a session in its globals, however
malformed the trees are (`scope_after_fault`).
-/

namespace LoxLang

variable {t : Tree} {us ts : List Tree} {stalls : Machine → Prop} {rounds room : Nat} {α : Type}
  {s s' : Session} {a : α}

namespace Tree

/-! ## Depths and serial numbers do not matter -/

theorem isNamed_bare (t : Tree) : t.bare.isNamed = t.isNamed := by
  rw [isNamed, nameToken_bare, isNamed]

theorem methodsNamed_bare (t : Tree) : t.bare.methodsNamed = t.methodsNamed := by
  cases t with
  | list items =>
    have hnamed : isNamed ∘ bare = isNamed := funext isNamed_bare
    simp only [bare, bareIn_eq, methodsNamed, asItems, List.all_map, hnamed]
  | _ => rfl

theorem strands_bare (t : Tree) : t.bare.strands = t.strands := by
  induction t using children_ind with
  | step t ih =>
    cases t with
    | classDecl | ifElse | whileLoop =>
      simp_all [bare, strands, isNull_bare, methodsNamed_bare, children]
    | _ => rfl

theorem isNull_numbered (t : Tree) (n : Nat) : (t.numbered.run n).1.isNull = t.isNull := by
  cases t with
  | literal v serial =>
    simp only [numbered]
    split <;> rfl
  | _ => rfl

theorem isNamed_numbered (t : Tree) (n : Nat) : (t.numbered.run n).1.isNamed = t.isNamed := by
  cases t with
  | literal v serial =>
    simp only [numbered]
    split <;> rfl
  | _ => rfl

theorem methodsNamed_numbered (t : Tree) (n : Nat) :
    (t.numbered.run n).1.methodsNamed = t.methodsNamed := by
  cases t with
  | list items =>
    show ((numberedAll items).run n).1.all isNamed = items.all isNamed
    induction items generalizing n with
    | nil => rfl
    | cons t ts ih =>
      exact congrArg₂ and (isNamed_numbered t n) (ih _)
  | literal v serial =>
    simp only [numbered]
    split <;> rfl
  | _ => rfl

/-- Numbering does not change what strands. -/
theorem strands_numbered (t : Tree) (n : Nat) : (t.numbered.run n).1.strands = t.strands := by
  induction t using children_ind generalizing n with
  | step t ih =>
    cases t with
    | classDecl _ parent methods =>
      exact congrArg₂ (fun null named => !null && !named) (isNull_numbered parent n)
        (methodsNamed_numbered methods _)
    | ifElse _ thenBranch elseBranch =>
      exact congrArg₂ or (ih thenBranch (by simp [children]) _)
        (ih elseBranch (by simp [children]) _)
    | whileLoop _ body => exact ih body (by simp [children]) _
    | literal v serial =>
      simp only [numbered]
      split <;> rfl
    | _ => rfl

/-- The items of a numbered sequence strand as the items of the sequence do. -/
theorem any_strands_numbered {n : Nat} (h : (t.numbered.run n).1.asItems = .ok us) :
    ∃ ts, t.asItems = .ok ts ∧ us.any strands = ts.any strands := by
  cases t with
  | list items =>
    refine ⟨items, rfl, ?_⟩
    cases h
    show ((numberedAll items).run n).1.any strands = items.any strands
    induction items generalizing n with
    | nil => rfl
    | cons t ts ih => exact congrArg₂ or (strands_numbered t n) ih
  | scalar s => exact ⟨us, h, rfl⟩
  | literal v serial =>
    simp only [numbered] at h
    split at h <;> cases h
  | _ => cases h

end Tree

/-- A resolved program differs from the program in depths only. -/
theorem map_bare_resolve (h : (resolve ts).statements = .ok us) :
    us.map Tree.bare = ts.map Tree.bare := by
  unfold resolve at h
  split at h
  · next trees s hx =>
    cases h
    exact (Resolver.closed_eachFrom Tree.maxDepth ts [] rfl hx).2
  · cases h
  · cases h
    rfl

theorem any_strands_resolve (h : (resolve ts).statements = .ok us) :
    us.any Tree.strands = ts.any Tree.strands := by
  have hstrands : Tree.strands ∘ Tree.bare = Tree.strands := funext Tree.strands_bare
  have hbare := congrArg (List.any · Tree.strands) (map_bare_resolve h)
  simpa only [List.any_map, hstrands] using hbare

/-! ## What is parsed does not strand -/

namespace Parser

variable {K : Token → Prop} {part : Part} {t : Tree}

theorem Shaped.isNamed (hK : ∀ a, K a → a.kind = .identifier → ∃ s, a.lexeme = .str s)
    (h : Shaped K .method t) : t.isNamed = true := by
  cases h with
  | method hname _ _ =>
    obtain ⟨a, rfl, ha, hkind⟩ := hname
    obtain ⟨s, hs⟩ := hK a ha (List.mem_singleton.1 hkind)
    have hok : a.name = .ok ⟨.str s⟩ := by
      unfold Token.name
      rw [hs]
      rfl
    show a.name.isOk = true
    rw [hok]
    rfl

/-- What the parser builds does not strand. -/
theorem Shaped.strands_eq_false (hK : ∀ a, K a → a.kind = .identifier → ∃ s, a.lexeme = .str s)
    (h : Shaped K part t) : t.strands = false := by
  induction h with
  | subclass _ _ hmethods _ =>
    have hall : List.all _ Tree.isNamed = true :=
      List.all_eq_true.2 fun u hu => (hmethods u hu).isNamed hK
    simp only [Tree.strands, Tree.methodsNamed, Tree.asItems, hall, Bool.not_true, Bool.and_false]
  | ifOnly _ _ _ ih => simp only [Tree.strands, ih, Tree.null, Bool.or_self]
  | ifElse _ _ _ _ iht ihe => simp only [Tree.strands, iht, ihe, Bool.or_self]
  | whileLoop _ _ _ ih => simpa only [Tree.strands] using ih
  | statement _ ih | funDecl _ ih => exact ih
  | _ => rfl

end Parser

/-- A program that was parsed has nothing that strands. -/
theorem any_strands_parse (source : String) :
    ((parse? (scan source).finish).getD {}).statements.any Tree.strands = false := by
  obtain ⟨parsed, hparsed, -⟩ := parse_scan source
  obtain ⟨ts, e, hts, he, hgenuine⟩ := scan_genuine source
  rw [hparsed]
  refine List.any_eq_false.2 fun t ht => ?_
  refine Bool.eq_false_iff.1 ((shaped_parse hparsed t ht).strands_eq_false fun a ha hkind => ?_)
  rw [hts] at ha
  rcases List.mem_append.1 ha with ha | ha
  · obtain ⟨s, hs, -⟩ := (hgenuine a ha).1.lexeme
    exact ⟨s, hs⟩
  · rw [List.mem_singleton.1 ha, he] at hkind
    cases hkind

/-! ## Statements that stall -/

namespace Exec

/-- A loop comes to a round in which its body stalls. -/
def StallsWhile (condition : Exec Value) (body : Exec Completion) (stalls : Machine → Prop) :
    Nat → Machine → Prop
  | 0, _ => False
  | rounds + 1, m => ∃ value m₁, condition m = .ok value m₁ ∧ value.truthy = true ∧
      (stalls m₁ ∨ ∃ m₂, body m₁ = .ok .normal m₂ ∧
        StallsWhile condition body stalls rounds m₂)

/-- Outside of blocks, the execution comes to a class whose superclass is a class and whose methods
cannot be made. -/
def Stalls (rounds : Nat) : Nat → Tree → Machine → Prop
  | room + 1, .classDecl slot parent methods, m => methods.methodsNamed = false ∧
      (∃ name, slot.asName = .ok name) ∧
      ∃ c m', superclass (evaluate rounds room) parent m = .ok (some c) m'
  | room + 1, .ifElse condition thenBranch elseBranch, m => ∃ value m₁ m₂,
      evaluate rounds room condition m = .ok value m₁ ∧
      note 3 (conditionText · value) m₁ = .ok () m₂ ∧
      Stalls rounds room (if value.truthy then thenBranch else elseBranch) m₂
  | room + 1, .whileLoop condition body, m =>
      StallsWhile (evaluate rounds room condition) (execute rounds room body)
        (Stalls rounds room body) rounds m
  | _, _, _ => False

/-- A loop stalls in the round in which its body does. -/
theorem settles_repeatWhile {condition : Exec Value} {body : Exec Completion}
    (hc : Leaves false condition) (hb : ∀ m, Settles (stalls m) body m) (rounds : Nat) :
    ∀ m, Settles (StallsWhile condition body stalls rounds m)
      (repeatWhile condition body rounds) m := by
  induction rounds with
  | zero => exact fun m => (leaves_throw _).settles m
  | succ rounds ih =>
    intro m
    let stallsAfter (m₁ : Machine) : Prop :=
      stalls m₁ ∨ ∃ m₂, body m₁ = .ok .normal m₂ ∧ StallsWhile condition body stalls rounds m₂
    refine Settles.congr ((hc.settles m).bind
      (Q := fun (value : Value) m₁ => value.truthy = true ∧ stallsAfter m₁) fun value m₁ _ => ?_)
      ⟨.inr, fun h => h.resolve_left id⟩
    split
    · next htruthy =>
      refine Settles.congr ((hb m₁).bind (Q := fun completion m₂ => completion = .normal ∧
        StallsWhile condition body stalls rounds m₂) fun completion m₂ _ => ?_) ?_
      · cases completion with
        | normal => exact (ih m₂).congr ⟨And.right, fun h => ⟨rfl, h⟩⟩
        | returned value => exact ((leaves_pure _).settles m₂).congr ⟨nofun, False.elim⟩
      · constructor
        · rintro ⟨-, hs | ⟨m₂, hm, hs⟩⟩
          · exact .inl hs
          · exact .inr ⟨_, m₂, hm, rfl, hs⟩
        · rintro (hs | ⟨_, m₂, hm, rfl, hs⟩)
          · exact ⟨htruthy, .inl hs⟩
          · exact ⟨htruthy, .inr ⟨m₂, hm, hs⟩⟩
    · next htruthy =>
      exact ((leaves_pure _).settles m₁).congr ⟨fun h => htruthy h.1, False.elim⟩

/-- Nothing in the place of a statement does not stall. -/
theorem not_stalls_null {m : Machine} (h : t.isNull = true) : ¬ Stalls rounds room t m := by
  cases t with
  | scalar => cases room <;> exact id
  | _ => cases h

/-- A statement stalls just where `Stalls` says. -/
theorem settles_execute (rounds : Nat) : ∀ (room : Nat) (t : Tree) (m : Machine),
    Settles (Stalls rounds room t m) (execute rounds room t) m := by
  intro room
  induction room with
  | zero =>
    intro t m
    unfold execute
    exact (leaves_throw _).settles m
  | succ room ih =>
    intro t m
    have hevaluate := (leaves_walks rounds room).1
    have hplain (t : Tree) (hs : t.strands = false) :
        Settles False (execute rounds (room + 1) t) m :=
      (((leaves_walks rounds (room + 1)).2.1 t).mono fun h => hs.symm.trans h).settles m
    cases t with
    | classDecl slot parent methods =>
      unfold execute
      exact settles_declareClass hevaluate slot parent methods m
    | ifElse condition thenBranch elseBranch =>
      unfold execute
      refine Settles.congr (((hevaluate condition).settles m).bind fun value m₁ _ =>
        ((leaves_note 3 _).settles m₁).bind (Q := fun _ m₂ =>
          Stalls rounds room (if value.truthy then thenBranch else elseBranch) m₂)
          fun _ m₂ _ => ?_) ?_
      · split
        · exact ih thenBranch m₂
        · split
          · next hnull =>
            exact ((leaves_pure _).settles m₂).congr ⟨not_stalls_null hnull, False.elim⟩
          · exact ih elseBranch m₂
      · constructor
        · rintro ⟨value, m₁, m₂, hm₁, hm₂, hs⟩
          exact .inr ⟨value, m₁, hm₁, .inr ⟨(), m₂, hm₂, hs⟩⟩
        · rintro (h | ⟨value, m₁, hm₁, h | ⟨_, m₂, hm₂, hs⟩⟩)
          · exact h.elim
          · exact h.elim
          · exact ⟨value, m₁, m₂, hm₁, hm₂, hs⟩
    | whileLoop condition body =>
      unfold execute
      exact settles_repeatWhile (hevaluate condition) (ih body) rounds m
    | _ => exact hplain _ rfl

theorem StallsWhile.exists_stalls {condition : Exec Value} {body : Exec Completion} :
    ∀ {m : Machine}, StallsWhile condition body stalls rounds m → ∃ m', stalls m' := by
  induction rounds with
  | zero => exact False.elim
  | succ rounds ih =>
    rintro m ⟨_, m₁, -, -, hs | ⟨_, -, hs⟩⟩
    · exact ⟨m₁, hs⟩
    · exact ih hs

/-- Only statements that strand stall. -/
theorem Stalls.strands : ∀ {m : Machine}, Stalls rounds room t m → t.strands = true := by
  induction room generalizing t with
  | zero => exact False.elim
  | succ room ih =>
    intro m h
    cases t with
    | classDecl =>
      obtain ⟨hmethods, -, c, m', hsuper⟩ := h
      rw [Tree.strands, isNull_of_superclass hsuper, hmethods]
      rfl
    | ifElse =>
      obtain ⟨value, -, m₂, -, -, hs⟩ := h
      rw [Tree.strands]
      split at hs
      · rw [ih hs, Bool.true_or]
      · rw [ih hs, Bool.or_true]
    | whileLoop =>
      obtain ⟨m', hs⟩ := StallsWhile.exists_stalls h
      rw [Tree.strands, ih hs]
    | _ => exact h.elim

end Exec

variable {x : Step α}

namespace Session

/-- The program comes to a statement that stalls. -/
def Stalls : List Tree → Session → Prop
  | [], _ => False
  | t :: ts, s =>
    if t.isNull then Stalls ts s
    else Exec.Stalls maxRounds Tree.maxDepth t s.machine ∨ ∃ completion m,
      Exec.execute maxRounds Tree.maxDepth t s.machine = .ok completion m ∧
        Stalls ts { s with machine := m }

/-- What stalls has a statement that strands. -/
theorem Stalls.any_strands : ∀ {s : Session}, Stalls ts s → ts.any Tree.strands = true := by
  induction ts with
  | nil => exact False.elim
  | cons t ts ih =>
    intro s h
    rw [List.any_cons]
    unfold Stalls at h
    split at h
    · rw [ih h, Bool.or_true]
    · obtain hs | ⟨_, _, -, hs⟩ := h
      · rw [hs.strands, Bool.true_or]
      · rw [ih hs, Bool.or_true]

/-- If the step stalls, it is given up in the scope of `super`. If not, it leaves the machine in the
scope where it found it. -/
structure Settles {α : Type} (stalls : Prop) (x : Step α) (s : Session) : Prop where
  stuck : stalls → ∃ fault s', x s = .error (.fault fault) s' ∧ s.machine.InSuper s'.machine
  back : ¬ stalls → s.machine.Back (stateAfter x s).machine

theorem Leaves.back (h : Leaves false x) (s : Session) : s.machine.Back (stateAfter x s).machine :=
  Ends.stateAfter (I := fun s' => s.machine.Back s'.machine) <|
    Ends.imp (h s) (fun _ _ h => h) fun _ _ h =>
      h.resolve_right fun hstranded => Bool.false_ne_true hstranded.1

theorem stateAfter_of_bind {β : Type} {f : α → Step β} (h : x s = .ok a s') :
    stateAfter (x >>= f) s = stateAfter (f a) s' := by
  unfold stateAfter
  rw [bind_of_ok h]

/-- A program stalls at the first statement that does. -/
theorem settles_execute (ts : List Tree) : ∀ s, Settles (Stalls ts s) (execute ts) s := by
  induction ts with
  | nil => exact fun s => ⟨False.elim, fun _ => .refl _⟩
  | cons t ts ih =>
    intro s
    unfold execute Stalls
    split
    · exact ih s
    · have hwalk := Exec.settles_execute maxRounds Tree.maxDepth t s.machine
      cases hx : Exec.execute maxRounds Tree.maxDepth t s.machine with
      | ok completion m =>
        have hrun := onMachine_of_ok hx
        have hnot : ¬ Exec.Stalls maxRounds Tree.maxDepth t s.machine := by
          intro hs
          obtain ⟨_, _, he, -⟩ := hwalk.stuck hs
          rw [hx] at he
          cases he
        have hback := (hwalk.back hnot).ok hx
        refine ⟨?_, fun hn => ?_⟩
        · rintro (hs | ⟨_, _, hm, hs⟩)
          · exact absurd hs hnot
          · cases hm
            obtain ⟨fault, s', he, hin⟩ := (ih _).stuck hs
            exact ⟨fault, s', (bind_of_ok hrun).trans he, hin.after hback⟩
        · rw [stateAfter_of_bind hrun]
          exact hback.trans ((ih _).back fun hs => hn (.inr ⟨_, _, rfl, hs⟩))
      | error stop m =>
        have hrun := onMachine_of_error hx
        by_cases hs : Exec.Stalls maxRounds Tree.maxDepth t s.machine
        · obtain ⟨fault, _, he, hin⟩ := hwalk.stuck hs
          rw [hx] at he
          cases he
          exact ⟨fun _ => ⟨fault, _, bind_of_ok hrun, hin⟩, fun hn => absurd (.inl hs) hn⟩
        · have hback := (hwalk.back hs).error hx
          refine ⟨?_, fun _ => ?_⟩
          · rintro (h | ⟨_, _, hm, -⟩)
            · exact absurd h hs
            · cases hm
          · rw [stateAfter_of_bind hrun]
            refine hback.trans (Leaves.back ?_ { s with machine := m })
            cases stop with
            | runtime | overflow => exact rules_leaves.fail _
            | fault | unfinished => exact leaves_throw _

/-! ## Preparing a program -/

variable {s s' : Session}

theorem read_eq_ok {text : String} (h : read text s = .ok ts s') :
    ts = ((parse? (scan text).finish).getD {}).statements := by
  simp only [read, bind_eq_ok] at h
  obtain ⟨_, _, -, _, _, -, _, _, -, _, _, -, h⟩ := h
  cases h
  rfl

theorem resolveNames_eq_ok (h : resolveNames ts s = .ok us s') :
    (resolve ts).statements = .ok us := by
  obtain ⟨_, _, -, h⟩ := bind_eq_ok.1 h
  cases hr : (resolve ts).statements with
  | error fault =>
    rw [hr] at h
    cases h
  | ok trees =>
    rw [hr] at h
    obtain ⟨_, _, -, h⟩ := bind_eq_ok.1 h
    cases h
    rfl

/-- A document is loaded, and its literals get numbers. -/
theorem load_eq_ok {json : Json} (h : load json s = .ok t s') :
    ∃ tree n, Tree.load json = .ok tree ∧ (tree.numbered.run n).1 = t := by
  obtain ⟨tree, s₁, hload, h⟩ := bind_eq_ok.1 h
  obtain ⟨_, s₂, -, h⟩ := bind_eq_ok.1 h
  obtain ⟨_, s₃, -, h⟩ := bind_eq_ok.1 h
  cases h
  cases hjson : Tree.load json with
  | ok found =>
    rw [hjson] at hload
    cases hload
    exact ⟨_, _, rfl, rfl⟩
  | error e =>
    rw [hjson] at hload
    cases hload

theorem liftFault_eq_ok {r : Except Fault α} (h : liftFault r s = .ok a s') : r = .ok a := by
  cases r with
  | ok =>
    cases h
    rfl
  | error => cases h

end Session

variable {launch : Launch}

namespace Launch

/-- The program comes from a document, and one of its statements strands. -/
def strands : Launch → Bool
  | source _ | unresolved _ => false
  | document json | documentUnresolved json =>
    match Tree.load json with
    | .ok tree =>
      match tree.asItems with
      | .ok items => items.any Tree.strands
      | .error _ => false
    | .error _ => false

theorem unlessError_eq_ok (h : unlessError ts s = .ok us s') : us = [] ∨ us = ts := by
  obtain ⟨s₁, _, -, h⟩ := bind_eq_ok.1 h
  split at h
  · cases h
    exact .inl rfl
  · cases h
    exact .inr rfl

/-- What is executed strands only if the program does. -/
theorem strands_of_prepare (h : launch.prepare s = .ok ts s') (hts : ts.any Tree.strands = true) :
    launch.strands = true := by
  cases launch with
  | source text =>
    obtain ⟨statements, _, hread, h⟩ := bind_eq_ok.1 h
    obtain ⟨_, _, -, h⟩ := bind_eq_ok.1 h
    split at h
    · cases h
      cases hts
    · obtain ⟨us, _, hresolve, h⟩ := bind_eq_ok.1 h
      obtain rfl | rfl := unlessError_eq_ok h
      · cases hts
      · rw [any_strands_resolve (Session.resolveNames_eq_ok hresolve), Session.read_eq_ok hread,
          any_strands_parse] at hts
        cases hts
  | unresolved text =>
    obtain ⟨_, _, -, h⟩ := bind_eq_ok.1 h
    obtain ⟨_, _, -, h⟩ := bind_eq_ok.1 h
    obtain rfl | rfl := unlessError_eq_ok h
    · cases hts
    · rw [any_strands_parse] at hts
      cases hts
  | document json =>
    obtain ⟨_, _, hload, h⟩ := bind_eq_ok.1 h
    obtain ⟨items, _, hitems, h⟩ := bind_eq_ok.1 h
    obtain ⟨us, _, hresolve, hus⟩ := bind_eq_ok.1 h
    obtain ⟨tree, n, htree, rfl⟩ := Session.load_eq_ok hload
    obtain ⟨found, hfound, hany⟩ := Tree.any_strands_numbered (Session.liftFault_eq_ok hitems)
    obtain rfl | rfl := unlessError_eq_ok hus
    · cases hts
    · rw [any_strands_resolve (Session.resolveNames_eq_ok hresolve), hany] at hts
      simp only [strands, htree, hfound, hts]
  | documentUnresolved json =>
    obtain ⟨_, _, hload, h⟩ := bind_eq_ok.1 h
    obtain ⟨_, _, -, h⟩ := bind_eq_ok.1 h
    obtain ⟨tree, n, htree, rfl⟩ := Session.load_eq_ok hload
    split at h
    · cases h
      cases hts
    · obtain ⟨found, hfound, hany⟩ := Tree.any_strands_numbered (Session.liftFault_eq_ok h)
      rw [hany] at hts
      simp only [strands, htree, hfound, hts]

/-- The run comes to a statement that stalls. -/
def Strands (launch : Launch) (s : Session) : Prop :=
  ∃ ts s₁, launch.prepare s = .ok ts s₁ ∧ Session.Stalls ts s₁

theorem Strands.strands (h : launch.Strands s) : launch.strands = true := by
  obtain ⟨ts, s₁, hprepare, hstalls⟩ := h
  exact strands_of_prepare hprepare hstalls.any_strands

/-- A launch strands the session just where `Strands` says. -/
theorem settles_step (launch : Launch) (s : Session) :
    Session.Settles (launch.Strands s) launch.step s := by
  have hleaves : Session.Leaves false launch.prepare := launch.leaves_prepare
  rw [step_eq]
  cases hp : launch.prepare s with
  | ok ts s₁ =>
    have hback := (hleaves s).ok hp
    have hexecute := Session.settles_execute ts s₁
    refine ⟨?_, fun hn => ?_⟩
    · rintro ⟨_, _, hp', hstalls⟩
      rw [hp] at hp'
      cases hp'
      obtain ⟨fault, s', he, hin⟩ := hexecute.stuck hstalls
      exact ⟨fault, s', (bind_of_ok hp).trans he, hin.after hback⟩
    · rw [Session.stateAfter_of_bind hp]
      exact hback.trans (hexecute.back fun hstalls => hn ⟨ts, s₁, hp, hstalls⟩)
  | error e s₁ =>
    refine ⟨?_, fun _ => ?_⟩
    · rintro ⟨_, _, hp', -⟩
      rw [hp] at hp'
      cases hp'
    · have hback := hleaves.back s
      unfold stateAfter at hback ⊢
      rw [hp] at hback
      rw [bind_of_error hp]
      exact hback

/-- The malformed tree for which the step is given up. -/
def fault? (launch : Launch) (s : Session) : Option Fault :=
  match launch.step s with
  | .error (.fault fault) _ => some fault
  | _ => none

end Launch

/-! ## Sessions -/

variable {launches : List Launch}

namespace Session

/-- The session is where its globals are. -/
def AtGlobals (s : Session) : Prop :=
  s.machine.current = s.machine.globals

/-- That a session is in its globals can be tested. -/
instance (s : Session) : Decidable s.AtGlobals :=
  inferInstanceAs (Decidable (s.machine.current = s.machine.globals))

/-- The globals are a scope that no scope is around. -/
def Rooted (s : Session) : Prop :=
  s.machine.store.RootAt s.machine.globals

/-- The session after runs, each of which leaves a session however it ends. -/
def afterLaunches (s : Session) (launches : List Launch) : Session :=
  launches.foldl (fun s launch => stateAfter launch.step s) s

/-- A launch keeps the session rooted. -/
theorem Rooted.after (h : s.Rooted) (launch : Launch) : (stateAfter launch.step s).Rooted := by
  refine Ends.stateAfter (I := Rooted) (Ends.imp (launch.leaves_step s) ?_ ?_)
  · intro _ s' hback
    unfold Rooted
    rw [hback.globals]
    exact hback.root h
  · intro _ s' hleft
    unfold Rooted
    rw [hleft.globals]
    exact hleft.root h

theorem Rooted.afterLaunches : ∀ {s : Session}, s.Rooted → (s.afterLaunches launches).Rooted := by
  induction launches with
  | nil => exact id
  | cons launch launches ih => exact fun h => ih (h.after launch)

theorem rooted_start (detail : Nat) (clock : Clock) : (start detail clock).Rooted :=
  ⟨Nat.zero_lt_one, rfl⟩

/-- A launch comes back to the globals unless it strands. -/
theorem AtGlobals.after_iff (h : s.AtGlobals) (hroot : s.Rooted) (launch : Launch) :
    (stateAfter launch.step s).AtGlobals ↔ ¬ launch.Strands s := by
  have hsettles := launch.settles_step s
  constructor
  · intro hafter hstrands
    obtain ⟨fault, s', he, hin⟩ := hsettles.stuck hstrands
    unfold stateAfter at hafter
    rw [he] at hafter
    exact hin.current_ne hroot hafter
  · intro hn
    have hback := hsettles.back hn
    exact hback.current.trans (h.trans hback.globals.symm)

/-- Launches without stranding trees come back to the globals. -/
theorem AtGlobals.afterLaunches :
    ∀ {s : Session}, s.AtGlobals → s.Rooted → (∀ launch ∈ launches, launch.strands = false) →
      (s.afterLaunches launches).AtGlobals := by
  induction launches with
  | nil => exact fun h _ _ => h
  | cons launch launches ih =>
    intro s h hroot hlaunches
    obtain ⟨hlaunch, hrest⟩ := List.forall_mem_cons.1 hlaunches
    refine ih ((h.after_iff hroot launch).2 fun hstrands => ?_) (hroot.after launch) hrest
    rw [hstrands.strands] at hlaunch
    cases hlaunch

end Session

/-- After any runs, let a session be in its globals. A further run leaves it there exactly if the
program does not come, outside of its blocks, to a class whose superclass is a class and whose
methods cannot all be made. If it does, the run is given up for a malformed tree, and the session
stays in the scope of `super`. Only documents have such classes, and whether a document has one can
be read off it. So a session without such documents is in its globals after each of its runs,
however malformed the trees are. -/
theorem scope_after_fault (detail : Nat) (clock : Clock) (launches : List Launch) :
    let s := (Session.start detail clock).afterLaunches launches
    ((∀ launch ∈ launches, launch.strands = false) → s.AtGlobals) ∧
    (s.AtGlobals → ∀ launch : Launch,
      let s' := stateAfter launch.step s
      (s'.AtGlobals ↔ ¬ launch.Strands s) ∧
      (launch.Strands s → launch.strands = true ∧ (launch.fault? s).isSome = true ∧
        s.machine.InSuper s'.machine)) := by
  intro s
  have hstart := Session.rooted_start detail clock
  refine ⟨Session.AtGlobals.afterLaunches rfl hstart, fun h launch => ?_⟩
  refine ⟨h.after_iff hstart.afterLaunches launch, fun hstrands => ⟨hstrands.strands, ?_⟩⟩
  obtain ⟨fault, s', he, hin⟩ := (launch.settles_step s).stuck hstrands
  rw [Launch.fault?, stateAfter, he]
  exact ⟨rfl, hin⟩

/-- A class with a superclass and with a method that is null. -/
def namelessMethod : Tree :=
  .classDecl (.token (.ofText .identifier "B" .nil 1))
    (.ident (.token (.ofText .identifier "A" .nil 1)) none) (.list [.null])

/-- In a block the class does no harm: the run is given up, and the session is in its globals. -/
theorem scope_after_fault_block :
    let s := (Session.start 0 (.still 0)).afterLaunches [.source "class A {}"]
    let launch := Launch.documentUnresolved (Tree.list [.block (.list [namelessMethod])]).dump
    launch.fault? s = some .missingSlot ∧ (stateAfter launch.step s).AtGlobals := by
  refine ⟨by decide +kernel, ?_⟩
  have h := (scope_after_fault 0 (.still 0) [.source "class A {}"]).2 (by decide +kernel)
    (.documentUnresolved (Tree.list [.block (.list [namelessMethod])]).dump)
  exact h.1.2 fun hstrands => absurd (h.2 hstrands).1 (by decide +kernel)

/-- Outside of blocks the session is lost: it is not in its globals after the run, and what the next
program declares is no global. -/
theorem scope_lost :
    let s := (Session.start 0 (.still 0)).afterLaunches [.source "class A {}"]
    let launch := Launch.documentUnresolved (Tree.list [namelessMethod]).dump
    let s' := stateAfter launch.step s
    let s'' := s'.afterLaunches [.source "var x = 1;"]
    s.AtGlobals ∧ launch.fault? s = some .missingSlot ∧ ¬ s'.AtGlobals ∧
      s''.machine.store.bound? s''.machine.globals (.ofText "x") = none := by
  decide +kernel

end LoxLang
