import LoxLang.Proofs.Renumbering
import LoxLang.Proofs.Sources

/-!
# What `for` means

The parser gives a `for` loop as a `while` loop. `ForLoop.run` says what the loop means: the
initializer declares its variable in a scope that is made once, and in this scope the condition is
tested, the body is executed and the increment is evaluated, round after round.

The tree of the parser is executed with a scope more, since the body and the increment stand in a
block of their own in each round, and the depths of their names are one larger. For a resolved
program it is the loop with these depths renumbered (`written_lowered`), and from there on the two
runs go in step (`inStep_run`). So they end the same way and leave the same behind
(`lowered_runs_as_for`).
-/

namespace LoxLang

open Resolver (Frame written writtenIn writtenAs afterStatement RenumbersTo Fine)

/-! ## Loops -/

/-- A `for` loop. Each of its three clauses may be missing. -/
structure ForLoop where
  initializer : Option Tree
  condition : Option Tree
  increment : Option Tree
  body : Tree

namespace ForLoop

open Exec

/-- The tree of the parser. -/
def lowered (loop : ForLoop) : Tree :=
  Parser.lowerFor loop.initializer loop.condition loop.increment loop.body

/-- The value of the condition. A condition that is missing is true. -/
def test (loop : ForLoop) (rounds room : Nat) : Exec Value :=
  match loop.condition with
  | some condition => evaluate rounds room condition
  | none => return .scalar (.bool true)

/-- Execute the body and then evaluate the increment, unless the body returns. -/
def round (loop : ForLoop) (rounds room : Nat) : Exec Completion :=
  match loop.increment with
  | some increment => do
    match ← execute rounds (room - 2) loop.body with
    | .normal => do
      let _ ← evaluate rounds (room - 3) increment
      return .normal
    | .returned value => return .returned value
  | none => execute rounds room loop.body

/-- Go through the rounds of the loop in the current scope. -/
def repeats (loop : ForLoop) (rounds : Nat) : Nat → Exec Completion
  | 0 => throw .overflow
  | room + 1 => repeatWhile (loop.test rounds room) (loop.round rounds room) rounds

/-- Run the loop. The initializer and all rounds share one new scope, and a loop without an
initializer is in the scope around it. The parts of the loop have the room that they have in the
tree of the parser. -/
def run (loop : ForLoop) (rounds : Nat) : Nat → Exec Completion
  | 0 => throw .overflow
  | room + 1 =>
    match loop.initializer with
    | some initializer => do
      let m ← get
      let scope ← addScope m.current
      inScope scope do
        match ← execute rounds (room - 1) initializer with
        | .normal => loop.repeats rounds (room - 1)
        | .returned value => return .returned value
    | none => loop.repeats rounds (room + 1)

/-- The scopes that are open in the rounds of the loop. -/
def scopesIn (loop : ForLoop) (scopes : List Frame) : List Frame :=
  match loop.initializer with
  | some initializer => afterStatement (.empty :: scopes) initializer
  | none => scopes

/-- The loop with the depths that its names have where the given scopes are open: the initializer is
in one scope more, and what comes after it is in the same scope. -/
def resolvedIn (loop : ForLoop) (scopes : List Frame) : ForLoop where
  initializer := loop.initializer.map (written (.empty :: scopes) .root)
  condition := loop.condition.map (written (loop.scopesIn scopes) .root)
  increment := loop.increment.map (written (loop.scopesIn scopes) .root)
  body := written (loop.scopesIn scopes) .root loop.body

/-- What is executed in each round by the tree of the parser. -/
def roundTree (loop : ForLoop) : Tree :=
  match loop.increment with
  | some increment => .block (.list [loop.body, .exprStmt increment])
  | none => loop.body

/-- The loop with one scope more around its body and its increment, if it has an increment. -/
def spaced (loop : ForLoop) : ForLoop :=
  match loop.increment with
  | some increment =>
    { loop with
      increment := some (increment.renumber (· + 1))
      body := loop.body.renumber (· + 1) }
  | none => loop

/-- The parts of the loop can be run with one scope more. -/
structure Sits (loop : ForLoop) : Prop where
  initializer : ∀ initializer ∈ loop.initializer, initializer.isNull = false
  body : loop.body.isNull = false
  increment : ∀ increment ∈ loop.increment,
    loop.body.Sits (· + 1) ∧ increment.Sits (· + 1)

end ForLoop

/-! ## The tree of the parser -/

variable {f : Nat → Nat} {T T' : List Frame} {t : Tree} {x x' : Exec Completion} {α : Type}

section Static

open Resolver ForLoop

variable {loop : ForLoop} {S : List Frame} {k : InClass}

/-- A part of the loop that is an expression. -/
theorem renumbersTo_expression (h : Everywhere Fine ⟨.expression, T'⟩ (written T' k t))
    (hf : StrictMono f) (hT : Renumbers f T T') :
    RenumbersTo f (written T .root t) (written T' k t) := by
  have ht : RenumbersTo f (written T .root (written T' k t)) (written T' k t) :=
    transfers_of_everywhere h hf (by decide) hT
  rwa [written_written] at ht

/-- A part of the loop that is a statement. -/
theorem renumbersTo_statement (h : Everywhere Fine ⟨.statement, T'⟩ (written T' k t))
    (hf : StrictMono f) (hT : Renumbers f T T') (hd : t.declared?.isSome → Shares f T T') :
    RenumbersTo f (written T .root t) (written T' k t) := by
  have ht : RenumbersTo f (written T .root (written T' k t)) (written T' k t) :=
    transfers_of_everywhere h hf (by decide) ⟨hT, fun hs => hd (declared?_written T' k t ▸ hs)⟩
  rwa [written_written] at ht

theorem strictMono_succ : StrictMono (· + 1 : Nat → Nat) :=
  fun _ _ h => Nat.succ_lt_succ h

/-- What a loop without an initializer is resolved to. -/
theorem written_rounds {condition increment : Option Tree} {body : Tree}
    (h : Everywhere Fine ⟨.statement, T⟩
      (written T k (Parser.lowerFor none condition increment body))) (hbody : body.declared? = none) :
    written T k (Parser.lowerFor none condition increment body) =
        ((⟨none, condition, increment, body⟩ : ForLoop).resolvedIn T).spaced.lowered ∧
      ((⟨none, condition, increment, body⟩ : ForLoop).resolvedIn T).Sits := by
  have hcondition : written T k (condition.getD (.literal (.scalar (.bool true)) none)) =
      (condition.map (written T .root)).getD (.literal (.scalar (.bool true)) none) := by
    cases condition with
    | none => rfl
    | some c =>
      exact (renumbersTo_expression (h.child 0 rfl rfl) strictMono_id
        (renumbers_id T)).eq_of_id.symm
  cases increment with
  | none =>
    have hb : Everywhere Fine ⟨.statement, T⟩ (written T k body) := h.child 1 rfl rfl
    have heq := (renumbersTo_statement hb strictMono_id (renumbers_id T)
      (by simp [hbody])).eq_of_id
    constructor
    · exact congrArg₂ Tree.whileLoop hcondition heq.symm
    · exact ⟨by simp [resolvedIn], by
        rw [← hb.here.formed.isNull_eq, isNull_written, resolvedIn, isNull_written], by
        simp [resolvedIn]⟩
  | some step =>
    have hblock := (h.child 1 rfl rfl).child 0 rfl rfl
    have hb : Everywhere Fine ⟨.statement, .empty :: T⟩ (written (.empty :: T) k body) :=
      hblock.child 0 rfl rfl
    have hafter : afterStatement (.empty :: T) body = .empty :: T := by
      unfold afterStatement
      rw [hbody]
    have hs : Everywhere Fine ⟨.expression, afterStatement (.empty :: T)
        (written (.empty :: T) k body)⟩ (written (afterStatement (.empty :: T) body) k step) :=
      (hblock.child 1 rfl rfl).child 0 rfl rfl
    rw [afterStatement_written, hafter] at hs
    have hbody' := renumbersTo_statement hb strictMono_succ (renumbers_empty_cons T)
      (by simp [hbody])
    have hstep := renumbersTo_expression hs strictMono_succ (renumbers_empty_cons T)
    constructor
    · simp only [Parser.lowerFor, written, writtenIn, hafter, hcondition, ← hbody'.eq, ← hstep.eq]
      rfl
    · refine ⟨by simp [resolvedIn], ?_, ?_⟩
      · rw [← hb.here.formed.isNull_eq, isNull_written, resolvedIn, isNull_written]
      · simp only [resolvedIn, Option.map_some, Option.mem_some_iff, forall_eq']
        exact ⟨hbody'.sits, hstep.sits⟩

/-- What a loop is resolved to: the loop itself, resolved without the blocks that the parser puts
around its parts, and spaced. -/
theorem written_lowered (h : Everywhere Fine ⟨.statement, S⟩ (written S k loop.lowered))
    (hbody : loop.body.declared? = none) :
    written S k loop.lowered = (loop.resolvedIn S).spaced.lowered ∧ (loop.resolvedIn S).Sits := by
  obtain ⟨initializer, condition, increment, body⟩ := loop
  cases initializer with
  | none => exact written_rounds h hbody
  | some start =>
    have hblock := h.child 0 rfl rfl
    have hstart : Everywhere Fine ⟨.statement, .empty :: S⟩ (written (.empty :: S) k start) :=
      hblock.child 0 rfl rfl
    have hrounds : Everywhere Fine ⟨.statement, afterStatement (.empty :: S)
        (written (.empty :: S) k start)⟩ (written (afterStatement (.empty :: S) start) k
          (Parser.lowerFor none condition increment body)) :=
      hblock.child 1 rfl rfl
    rw [afterStatement_written] at hrounds
    obtain ⟨heq, hsits⟩ := written_rounds hrounds hbody
    have hstart' := (renumbersTo_statement hstart strictMono_id (renumbers_id _)
      fun _ => shares_id .empty S).eq_of_id
    constructor
    · calc written S k (Parser.lowerFor (some start) condition increment body)
        _ = .block (.list [written (.empty :: S) k start,
              written (afterStatement (.empty :: S) start) k
                (Parser.lowerFor none condition increment body)]) := rfl
        _ = .block (.list [written (.empty :: S) .root start,
              ((⟨none, condition, increment, body⟩ : ForLoop).resolvedIn
                (afterStatement (.empty :: S) start)).spaced.lowered]) := by rw [heq, hstart']
        _ = _ := by cases increment <;> rfl
    · refine ⟨?_, hsits.body, hsits.increment⟩
      simp only [resolvedIn, Option.map_some, Option.mem_some_iff, forall_eq']
      rw [hstart', hstart.here.formed.isNull_eq]

end Static

/-! ## The runs -/

section Dynamic

open Exec Twins ForLoop

variable {p : Twins (Tree.renumbering False)} {π : Setting} {rounds room : Nat} {loop : ForLoop}

/-- The right machine does its part in a spare scope. -/
theorem inStep_spare (hx : InStep x x' ((p.addSpare p.right.current).inScopes p.left.current
      ⟨p.right.store.scopes.size⟩) Twins.SameEnd) :
    InStep x (get >>= fun m => addScope m.current >>= fun scope => inScope scope x') p
      Twins.SameEnd := by
  have hin := (Paired.grows_addSpare p p.right.current).trans
    (Paired.grows_inScopes _ p.left.current ⟨p.right.store.scopes.size⟩)
  cases hx with
  | @result q a a' left right grows paired holds =>
    have hback := Paired.grows_inScopes q q.left.current p.right.current
    exact .result (q := q.inScopes q.left.current p.right.current) left (inScope_of_ok right)
      ((hin.trans grows).trans hback) (paired.inScopes _ _)
      ⟨⟨holds.1.1, rfl⟩, holds.2.1, holds.2.2.mono paired hback⟩
  | @stop q e e' left right like grows paired =>
    have hback := Paired.grows_inScopes q q.left.current p.right.current
    exact .stop (q := q.inScopes q.left.current p.right.current) left (inScope_of_error right) like
      ((hin.trans grows).trans hback) (paired.inScopes _ _)

theorem executeEach_singleton {execute : Tree → Exec Completion} (h : t.isNull = false) :
    executeEach execute [t] = execute t := by
  funext m
  rw [executeEach, h, if_neg Bool.false_ne_true]
  cases hx : execute t m with
  | ok c m' =>
    rw [bind_of_ok hx]
    cases c <;> rfl
  | error e m' => rw [bind_of_error hx]

/-- The body and the increment, in the loop and in a block. -/
theorem inStep_bodyAndIncrement {body increment : Tree} (h : p.Paired) (hπ : π.number = (· + 1))
    (hf : p.Here π) (hnull : body.isNull = false) (hbody : body.Sits (· + 1))
    (hincrement : increment.Sits (· + 1)) :
    InStep
      (do
        match ← execute rounds room body with
        | .normal => do
          let _ ← evaluate rounds (room - 1) increment
          return .normal
        | .returned value => return .returned value)
      (executeEach (execute rounds room)
        [body.renumber (· + 1), .exprStmt (increment.renumber (· + 1))]) p Twins.SameEnd := by
  obtain ⟨-, hexecute, -⟩ := inStep_walks (Tree.renumbering False) rounds room
  rw [executeEach, Tree.isNull_renumber, hnull, if_neg Bool.false_ne_true]
  refine (hexecute h hf ⟨by rw [hπ], by rwa [hπ]⟩).next h hf ?_
  rintro q _ completion - hq hf' ⟨rfl, hfits⟩
  cases completion with
  | returned v => exact .pure hq ⟨rfl, hfits⟩
  | normal =>
    dsimp only
    rw [executeEach_singleton rfl]
    cases room with
    | zero =>
      unfold evaluate execute
      exact .throw hq trivial
    | succ room =>
      refine ((inStep_walks _ rounds room).1 hq hf' ⟨by rw [hπ], by rwa [hπ]⟩).bind ?_
      exact fun _ hq' _ _ _ => .pure hq' ⟨rfl, trivial⟩

/-- One round of the loop. -/
theorem inStep_round (hs : loop.Sits) (h : p.Paired) (hπ : π.number = id) (hf : p.Here π) :
    InStep (loop.round rounds room) (execute rounds room loop.spaced.roundTree) p
      Twins.SameEnd := by
  obtain ⟨initializer, condition, increment, body⟩ := loop
  cases increment with
  | none => exact (inStep_walks _ rounds room).2.1 h hf (Tree.renumberedIn_self hπ body)
  | some increment =>
    obtain ⟨hbody, hincrement⟩ := hs.increment increment rfl
    have hspare := (h.addSpare hf.right).inScopes p.left.current ⟨p.right.store.scopes.size⟩
    have hf' := (hf.addSpare h).inScopes p.left.current ⟨p.right.store.scopes.size⟩
    -- A block takes two levels of room, so that with less both runs overflow.
    rcases room with _ | _ | room
    · exact .stop rfl rfl trivial (.refl p) h
    · exact .stop (q := p.addSpare p.right.current) rfl rfl trivial (Paired.grows_addSpare p _)
        (h.addSpare hf.right)
    · have hround : InStep _ (executeEach (execute rounds room) _) _ Twins.SameEnd :=
        inStep_bodyAndIncrement hspare (by simp [hπ]) hf' hs.body hbody hincrement
      exact Runs.congr (inStep_spare hround) rfl rfl

/-- The tree of the loop without the initializer. -/
def ForLoop.repeatTree (loop : ForLoop) : Tree :=
  .whileLoop (loop.condition.getD (.literal (.scalar (.bool true)) none)) loop.roundTree

/-- The condition of the loop, which is not changed by the space. -/
theorem inStep_test (h : p.Paired) (hπ : π.number = id) (hf : p.Here π) :
    InStep (loop.test rounds (room + 1)) (evaluate rounds (room + 1)
      (loop.condition.getD (.literal (.scalar (.bool true)) none))) p Twins.SameValue := by
  obtain ⟨initializer, condition, increment, body⟩ := loop
  cases condition with
  | none => exact .pure h ⟨rfl, trivial⟩
  | some condition =>
    exact (inStep_walks _ rounds (room + 1)).1 h hf (Tree.renumberedIn_self hπ condition)

theorem condition_spaced (loop : ForLoop) : loop.spaced.condition = loop.condition := by
  unfold spaced
  split <;> rfl

/-- The rounds of a loop are the run of the `while` loop that it stands for. -/
theorem inStep_repeats (hs : loop.Sits) (h : p.Paired) (hπ : π.number = id) (hf : p.Here π) :
    InStep (loop.repeats rounds room) (execute rounds room loop.spaced.repeatTree) p
      Twins.SameEnd := by
  unfold repeatTree
  rw [condition_spaced]
  rcases room with _ | _ | room
  · exact .stop rfl rfl trivial (.refl p) h
  · -- There is no room for a condition, and where it is missing there is none for the body.
    cases rounds with
    | zero => exact .stop rfl rfl trivial (.refl p) h
    | succ rounds =>
      obtain ⟨initializer, condition, increment, body⟩ := loop
      cases condition with
      | none => cases increment <;> exact .stop rfl rfl trivial (.refl p) h
      | some condition => exact .stop rfl rfl trivial (.refl p) h
  · exact inStep_repeatWhile (fun h hf => inStep_test h hπ hf)
      (fun h hf => inStep_round hs h hπ hf) rounds h hf

theorem spaced_lowered_of_none (h : loop.initializer = none) :
    loop.spaced.lowered = loop.spaced.repeatTree := by
  obtain ⟨initializer, condition, increment, body⟩ := loop
  cases h
  cases increment <;> rfl

theorem spaced_lowered_of_some {start : Tree} (h : loop.initializer = some start) :
    loop.spaced.lowered = .block (.list [start, loop.spaced.repeatTree]) := by
  obtain ⟨initializer, condition, increment, body⟩ := loop
  cases h
  cases increment <;> rfl

/-- The initializer and the rounds, in the new scope of both machines. -/
theorem inStep_initialized {start : Tree} (hs : loop.Sits) (hstart : start.isNull = false)
    (h : p.Paired) (hπ : π.number = id) (hf : p.Here π) :
    InStep
      (do
        match ← execute rounds room start with
        | .normal => loop.repeats rounds room
        | .returned value => return .returned value)
      (executeEach (execute rounds room) [start, loop.spaced.repeatTree]) p Twins.SameEnd := by
  have hstep := (inStep_walks _ rounds room).2.1 h hf (Tree.renumberedIn_self hπ start)
  rw [executeEach, hstart, if_neg Bool.false_ne_true]
  refine hstep.next h hf ?_
  rintro q _ completion - hq hf' ⟨rfl, hfits⟩
  cases completion with
  | returned v => exact .pure hq ⟨rfl, hfits⟩
  | normal =>
    dsimp only
    rw [executeEach_singleton rfl]
    exact inStep_repeats hs hq hπ hf'

/-- The loop and its spaced tree run in step. -/
theorem inStep_run (hs : loop.Sits) (h : p.Paired) (hπ : π.number = id) (hf : p.Here π) :
    InStep (loop.run rounds room) (execute rounds room loop.spaced.lowered) p Twins.SameEnd := by
  cases hinit : loop.initializer with
  | none =>
    rw [spaced_lowered_of_none hinit]
    cases room with
    | zero => exact .stop rfl rfl trivial (.refl p) h
    | succ room =>
      unfold ForLoop.run
      rw [hinit]
      exact inStep_repeats hs h hπ hf
  | some start =>
    rw [spaced_lowered_of_some hinit]
    have hstart := hs.initializer start hinit
    cases room with
    | zero => exact .stop rfl rfl trivial (.refl p) h
    | succ room =>
      unfold ForLoop.run
      rw [hinit]
      refine .look ((inStep_addScope h hf false).bind fun {q r r'} hg hq _ _ hscope => ?_)
      have hin : InStep _ (executeEach (execute rounds (room - 1)) _) _ Twins.SameEnd :=
        inStep_initialized hs hstart (hq.inScopes r r') (by simp [Setting.inside, hπ])
          (hscope.inScopes r r')
      cases room with
      | zero => exact .stop rfl rfl trivial (.refl q) hq
      | succ room => exact inStep_inScope (Runs.congr hin rfl rfl)

/-- A loop leaves the machine in the scope where it found it. -/
theorem returns_run (loop : ForLoop) (rounds room : Nat) : Returns (loop.run rounds room) := by
  have hevaluate (room : Nat) (t : Tree) : Leaves true (evaluate rounds room t) :=
    ((leaves_walks rounds room).1 t).weaken
  have hexecute (room : Nat) (t : Tree) : Leaves true (execute rounds room t) :=
    ((leaves_walks rounds room).2.1 t).mono fun _ => rfl
  have hround (room : Nat) : Leaves true (loop.round rounds room) := by
    unfold ForLoop.round
    cases loop.increment with
    | none => exact hexecute room _
    | some increment =>
      refine (hexecute _ _).bind fun completion => ?_
      cases completion with
      | normal => exact (hevaluate _ _).bind fun _ => leaves_pure _
      | returned value => exact leaves_pure _
  have htest (room : Nat) : Leaves true (loop.test rounds room) := by
    unfold ForLoop.test
    cases loop.condition with
    | none => exact leaves_pure _
    | some condition => exact hevaluate room condition
  have hrepeats (room : Nat) : Leaves true (loop.repeats rounds room) := by
    cases room with
    | zero => exact leaves_throw _
    | succ room => exact rules_leaves.repeatWhile (htest room) (hround room) rounds
  refine Leaves.returns (?_ : Leaves true (loop.run rounds room))
  cases room with
  | zero => exact leaves_throw _
  | succ room =>
    unfold ForLoop.run
    cases loop.initializer with
    | none => exact hrepeats (room + 1)
    | some start =>
      refine .look fun m => (rules_leaves.addScope _).bind fun scope => ?_
      refine leaves_inScope (?_ : Leaves true _) scope
      refine (hexecute _ _).bind fun completion => ?_
      cases completion with
      | normal => exact hrepeats _
      | returned value => exact leaves_pure _

end Dynamic

/-! ## What can be seen of a run -/

/-- The machines that two runs lead to from the first machine show the same: what was printed and
traced, all variables of the scopes that were there before, and all objects and classes. -/
structure Machine.ShowsSame (m m₁ m₂ : Machine) : Prop where
  rest : { m₂ with store := m₁.store, current := m₁.current } = m₁
  scopes : ∀ r : ScopeRef, r.index < m.store.scopes.size → m₂.store.scope r = m₁.store.scope r
  objects : m₂.store.objects = m₁.store.objects
  classes : m₂.store.classes = m₁.store.classes
  functionName : ∀ r, m₂.store.functionName r = m₁.store.functionName r

/-- The runs give the same, or the same stops both, and the machines show the same. -/
inductive SameRun {α : Type} (m : Machine) :
    EStateM.Result Stop Machine α → EStateM.Result Stop Machine α → Prop where
  | result {m₁ m₂ : Machine} (a : α) (shows : m.ShowsSame m₁ m₂) : SameRun m (.ok a m₁) (.ok a m₂)
  | stop {m₁ m₂ : Machine} (e : Stop) (shows : m.ShowsSame m₁ m₂) :
      SameRun m (.error e m₁) (.error e m₂)

/-- Statements that are executed in a scope. -/
structure Passage where
  scope : ScopeRef
  statements : List Tree
  rounds : Nat
  room : Nat

/-- Run the statements of a passage in its scope. -/
def Passage.run (passage : Passage) : Exec Completion :=
  Exec.inScope passage.scope
    (Exec.executeEach (Exec.execute passage.rounds passage.room) passage.statements)

/-- The machine after some passages, however each of them ends. -/
def Machine.after (m : Machine) (passages : List Passage) : Machine :=
  passages.foldl (fun m passage => stateAfter passage.run m) m

/-- What is executed in the scopes of the first machine runs from the two other ones in the same
way, whatever was executed in these scopes before it. -/
def Machine.SameLater (m m₁ m₂ : Machine) : Prop :=
  ∀ (passages : List Passage) (passage : Passage),
    (∀ next ∈ passage :: passages, next.scope.index < m.store.scopes.size) →
      SameRun m (passage.run (m₁.after passages)) (passage.run (m₂.after passages))

/-- Run a computation and bind the value that it returns to a name. -/
def Exec.keep (r : ScopeRef) (name : Name) (x : Exec Completion) : Exec Completion := do
  let completion ← x
  defineIn r name completion.value
  return completion

/-- From the machine the two computations run in the same way, and nothing tells them apart
afterwards. -/
structure RunsAs (m : Machine) (x x' : Exec Completion) : Prop where
  same : SameRun m (x m) (x' m)
  /-- They leave the machine in the scope where it was. -/
  back : (∀ fault m', x m ≠ .error (.fault fault) m') →
    (stateAfter x m).current = m.current ∧ (stateAfter x' m).current = m.current
  /-- Around the scopes that were there before are the same scopes as before, so that no scope of
  the computations can be seen from them. -/
  chain : ∀ r : ScopeRef, r.index < m.store.scopes.size →
    (stateAfter x m).store.chain r = m.store.chain r ∧
      (stateAfter x' m).store.chain r = m.store.chain r
  later : m.SameLater (stateAfter x m) (stateAfter x' m)
  /-- The same if the value that they return is used. -/
  kept : ∀ (r : ScopeRef) (name : Name), r.index < m.store.scopes.size →
    m.SameLater (stateAfter (Exec.keep r name x) m) (stateAfter (Exec.keep r name x') m)

section Seen

open Twins

variable {m : Machine} {ordered : Prop} {p : Twins (Tree.renumbering ordered)}

theorem Twins.Paired.showsSame (h : p.Paired) (hg : (same m).Grows p) :
    m.ShowsSame p.left p.right where
  rest := by
    have hrest := h.rest
    rwa [← h.trace trivial] at hrest
  scopes _ hr := h.scope_old (hg.old ▸ hr)
  objects := h.objects
  classes := h.classes
  functionName := h.functionName

variable {Q : Twins (Tree.renumbering ordered) → α → α → Prop}

theorem Twins.Runs.sameRun {x x' : Exec α} (h : Runs x x' p Q) (hg : (same m).Grows p)
    (hQ : ∀ {q a a'}, Q q a a' → a' = a) : SameRun m (x p.left) (x' p.right) := by
  cases h with
  | result left right grows paired holds =>
    rw [left, right, hQ holds]
    exact .result _ (paired.showsSame (hg.trans grows))
  | stop left right like grows paired =>
    rw [left, right, like.eq_of_faithful ((Tree.renumbering ordered).faithful trivial)]
    exact .stop _ (paired.showsSame (hg.trans grows))

/-- The machines after both runs are paired again. -/
theorem Twins.Runs.exists_after {x x' : Exec α} (h : Runs x x' p Q) :
    ∃ q : Twins (Tree.renumbering ordered), q.left = stateAfter x p.left ∧
      q.right = stateAfter x' p.right ∧ p.Grows q ∧ q.Paired := by
  unfold stateAfter
  cases h with
  | @result q a a' left right grows paired holds =>
    rw [left, right]
    exact ⟨q, rfl, rfl, grows, paired⟩
  | @stop q e e' left right like grows paired =>
    rw [left, right]
    exact ⟨q, rfl, rfl, grows, paired⟩

theorem has_self (hm : m.Closed) {r : FunctionRef} (hr : (m.store.function? r).isSome) (b : Bool) :
    (same m : Twins (Tree.renumbering ordered)).Has b r := by
  obtain ⟨f, hf⟩ := Option.isSome_iff_exists.1 hr
  refine ⟨f, f, hf, hf, rfl, rfl, ⟨id, []⟩, reaches_same (hm.store.closures hf) rfl fun _ => rfl, ?_⟩
  refine Tree.renumberedIn_self ?_ _
  cases b <;> simp [Setting.inside]

/-- A machine is paired with itself. -/
theorem paired_self (hm : m.Closed) (ho : ordered → m.Ordered) :
    (same m : Twins (Tree.renumbering ordered)).Paired :=
  paired_same hm ho fun b hr => has_self hm hr b

/-- A passage in a scope that was there before goes in step. -/
theorem inStep_passage {passage : Passage} (h : p.Paired) (hr : passage.scope.index < p.old) :
    InStep passage.run passage.run p Twins.SameEnd := by
  have hreach := h.reaches_old (π := ⟨id, []⟩) hr rfl fun _ => rfl
  exact inStep_inScope (inStep_executeEach (inStep_walks _ passage.rounds passage.room).2.1
    (List.forall₂_same.2 fun t _ => Tree.renumberedIn_self rfl t) (h.inScopes _ _)
    (hreach.inScopes _ _))

/-- The machines stay paired through later passages. -/
theorem exists_after_passages (passages : List Passage) :
    ∀ {p : Twins (Tree.renumbering ordered)}, p.Paired →
      (∀ passage ∈ passages, passage.scope.index < p.old) →
      ∃ q : Twins (Tree.renumbering ordered), q.left = p.left.after passages ∧
        q.right = p.right.after passages ∧ q.Paired ∧ p.Grows q := by
  induction passages with
  | nil => exact fun h _ => ⟨_, rfl, rfl, h, .refl _⟩
  | cons passage passages ih =>
    intro p h hr
    obtain ⟨hr, hrest⟩ := List.forall_mem_cons.1 hr
    obtain ⟨q, hl, hr', hg, hq⟩ := (inStep_passage h hr).exists_after
    obtain ⟨u, hul, hur, hu, hgu⟩ := ih hq fun next hn => hg.old ▸ hrest next hn
    exact ⟨u, by rw [hul, hl]; rfl, by rw [hur, hr']; rfl, hu, hg.trans hgu⟩

/-- Machines after runs in step are the same for all that comes later. -/
theorem Twins.Runs.sameLater {x x' : Exec α} (h : Runs x x' (same m) Q) :
    m.SameLater (stateAfter x m) (stateAfter x' m) := by
  intro passages passage hold
  obtain ⟨q, hl, hr, hg, hq⟩ := h.exists_after
  obtain ⟨hscope, hrest⟩ := List.forall_mem_cons.1 hold
  obtain ⟨u, hul, hur, hu, hgu⟩ :=
    exists_after_passages passages hq fun next hn => hg.old ▸ hrest next hn
  have hgrows := hg.trans hgu
  rw [← show _ = stateAfter x m from hl, ← show _ = stateAfter x' m from hr, ← hul, ← hur]
  exact Runs.sameRun (inStep_passage hu (hgrows.old ▸ hscope)) hgrows fun hQ => hQ.2.1

theorem inStep_keep {r : ScopeRef} (name : Name) (h : InStep x x' p Twins.SameEnd)
    (hr : r.index < p.old) : InStep (Exec.keep r name x) (Exec.keep r name x') p Twins.SameEnd := by
  refine h.bind ?_
  rintro q _ completion hg hq - - ⟨rfl, hfits⟩
  have hold : r.index < q.old := hg.old ▸ hr
  have hlt := Nat.lt_of_lt_of_le hold hq.old_le
  refine (inStep_defineIn hq hlt (hq.image_old hold).symm ?_ hfits).bind fun hg' hq' _ _ _ => ?_
  · rw [hq.marked_old hold]
    rfl
  · exact .pure hq' ⟨rfl, hfits.mono hq hg'⟩

/-- A computation that comes back leaves the machine in its scope. -/
theorem Exec.Returns.current_stateAfter (hx : Exec.Returns x)
    (h : ∀ fault m', x m ≠ .error (.fault fault) m') : (stateAfter x m).current = m.current := by
  have hends := hx m
  unfold Ends at hends
  unfold stateAfter
  cases hm : x m with
  | ok completion m₁ =>
    rw [hm] at hends
    exact hends.current
  | error e m₁ =>
    rw [hm] at hends
    refine (hends fun fault he => ?_).current
    rw [he] at hm
    exact h fault m₁ hm

theorem SameRun.exists_error {r : EStateM.Result Stop Machine α} {e : Stop} {m₂ : Machine}
    (h : SameRun m r (.error e m₂)) : ∃ m₁, r = .error e m₁ := by
  cases h with
  | stop => exact ⟨_, rfl⟩

/-- Computations that go in step from one machine run in the same way. -/
theorem runsAs_of_inStep (h : InStep x x' (same m : Twins (Tree.renumbering False)) Twins.SameEnd)
    (hx : Exec.Returns x) (hx' : Exec.Returns x') : RunsAs m x x' := by
  have hsame : SameRun m (x m) (x' m) := Runs.sameRun h (.refl _) fun hQ => hQ.2.1
  refine ⟨hsame, fun hfault => ?_, fun r hr => ?_, Runs.sameLater h, fun r name hr => ?_⟩
  · refine ⟨hx.current_stateAfter hfault, hx'.current_stateAfter fun fault m₂ he => ?_⟩
    obtain ⟨m₁, he⟩ := (he ▸ hsame).exists_error
    exact hfault fault m₁ he
  · obtain ⟨q, hl, hr', hg, -⟩ := Runs.exists_after h
    rw [← show _ = stateAfter x m from hl, ← show _ = stateAfter x' m from hr']
    exact ⟨hg.left.chain hr, hg.right.chain hr⟩
  · exact Runs.sameLater (inStep_keep name h hr)

end Seen

/-! ## Closed machines -/

section Closed

open Twins

variable {m : Machine} {passage : Passage}

theorem Passage.current_run (passage : Passage) (m : Machine) :
    (stateAfter passage.run m).current = m.current := by
  unfold stateAfter Passage.run
  cases hx : Exec.executeEach (Exec.execute passage.rounds passage.room) passage.statements
      { m with current := passage.scope } with
  | ok completion m₁ => rw [inScope_of_ok hx]
  | error e m₁ => rw [inScope_of_error hx]

theorem closed_passage (hm : m.Closed) (hr : passage.scope.index < m.store.scopes.size) :
    (stateAfter passage.run m).Closed ∧ m.store.Grows (stateAfter passage.run m).store := by
  obtain ⟨q, hl, -, hg, hq⟩ := (inStep_passage (paired_self hm False.elim) hr).exists_after
  have hcurrent := passage.current_run m
  rw [← show _ = stateAfter passage.run m from hl] at hcurrent ⊢
  have hold : q.old ≤ q.left.store.scopes.size := hq.old_le
  refine ⟨⟨hq.closed, Nat.lt_of_lt_of_le hq.globals_lt hold, ?_⟩, hg.left⟩
  rw [hcurrent]
  exact Nat.lt_of_lt_of_le hm.current hg.left.scopes

/-- Every run leaves a closed machine. -/
theorem closed_after (passages : List Passage) : ∀ {m : Machine}, m.Closed →
    (∀ passage ∈ passages, passage.scope.index < m.store.scopes.size) →
      (m.after passages).Closed := by
  induction passages with
  | nil => exact fun hm _ => hm
  | cons passage passages ih =>
    intro m hm hr
    obtain ⟨hr, hrest⟩ := List.forall_mem_cons.1 hr
    obtain ⟨hclosed, hgrows⟩ := closed_passage hm hr
    exact ih hclosed fun next hn => Nat.lt_of_lt_of_le (hrest next hn) hgrows.scopes

end Closed

/-! ## Loops of a program -/

namespace Program.Accepted

variable {q : Program}

theorem wellFormed_list (h : q.Accepted) : WellFormed .body (.list q.parsed) :=
  fun _ => .body .body fun _ t ht => h.wellFormed t (List.mem_of_getElem? ht) _

end Program.Accepted

theorem ForLoop.lowered_cases (loop : ForLoop) :
    (∃ condition body, loop.lowered = .whileLoop condition body) ∨
      ∃ items, loop.lowered = .block items := by
  unfold lowered Parser.lowerFor
  cases loop.initializer with
  | none => exact .inl ⟨_, _, rfl⟩
  | some initializer => exact .inr ⟨_, rfl⟩

/-- Each loop of a program stands where a statement stands. -/
theorem exists_contextAt {root : Tree}
    (h : Everywhere (fun c u => Formed c.role u) ⟨.body, []⟩ root) (loop : ForLoop)
    {path : List Nat} (hloop : root.at? path = some loop.lowered) :
    ∃ S, contextAt root path = some ⟨.statement, S⟩ := by
  obtain ⟨condition, body, heq⟩ | ⟨items, heq⟩ := loop.lowered_cases
  all_goals
    rw [heq] at hloop
    obtain ⟨⟨role, S⟩, hc⟩ | hleaf | ⟨params, hparams, -⟩ :=
      Resolver.exists_contextAt_or_unwalked h hloop
    · have hformed := (everywhere_at h hloop hc).here
      cases hformed
      exact ⟨S, hc⟩
    · cases hleaf
    · cases hparams

/-- A `for` loop of an accepted program means what `ForLoop.run` says, whichever of its clauses it
has. Its tree in the resolved program is executed as the loop is run, with the depths that its parts
have in the scopes around it: from every machine both end in the same way, print the same and leave
the same variables, objects and classes, and what is executed later cannot tell which of them was
run. The scopes that can be seen afterwards are those that could be seen before. -/
theorem lowered_runs_as_for {q : Program} (hq : q.Accepted) {loop : ForLoop} {path : List Nat}
    (hloop : (Tree.list q.parsed).at? path = some loop.lowered)
    (hbody : loop.body.declared? = none) :
    ∃ S tree, contextAt (.list q.parsed) path = some ⟨.statement, S⟩ ∧
      (Tree.list q.resolved).at? path = some tree ∧
      ∀ m : Machine, m.Closed → ∀ rounds room,
        RunsAs m ((loop.resolvedIn S).run rounds room) (Exec.execute rounds room tree) := by
  have hwell := hq.wellFormed_list []
  obtain ⟨S, hcontext⟩ := exists_contextAt hwell loop hloop
  obtain ⟨k, htree, hcontext'⟩ := Resolver.at?_writtenAs hwell .none hloop hcontext
  have hresolved : writtenAs [] .none .body (Tree.list q.parsed) = .list q.resolved :=
    congrArg Tree.list hq.written.1.symm
  rw [hresolved] at htree hcontext'
  obtain ⟨htree', hsits⟩ := written_lowered (everywhere_at hq.fine htree hcontext') hbody
  refine ⟨S, _, hcontext, htree, fun m hm rounds room => ?_⟩
  refine runsAs_of_inStep ?_ (returns_run _ rounds room) ((Exec.returns_walks rounds room).2.1 _)
  show Twins.InStep _ (Exec.execute rounds room (written S k loop.lowered)) _ _
  rw [htree']
  exact inStep_run (π := ⟨id, []⟩) hsits (paired_self hm False.elim) rfl
    (Twins.reaches_same hm.current rfl fun _ => rfl)

/-- The loop that a tree is made from, if it has all three clauses. -/
def ForLoop.ofTree? : Tree → Option ForLoop
  | .block (.list [initializer,
      .whileLoop condition (.block (.list [body, .exprStmt increment]))]) =>
    some ⟨some initializer, some condition, some increment, body⟩
  | _ => none

theorem ForLoop.lowered_of_ofTree? {loop : ForLoop} (h : ofTree? t = some loop) :
    t = loop.lowered := by
  unfold ofTree? at h
  split at h
  · cases h
    rfl
  · cases h

/-- A loop whose body puts its variable into closures. The function of the last round is called
after the loop: it sees the last increment, while the globals do not have the variable. -/
theorem lowered_runs_as_for_closure :
    let source := "var f; for (var i = \"a\"; i != \"aaa\"; i = i + \"a\")" ++
      " \x7b fun g() \x7b return i; \x7d f = g; \x7d print f();"
    ∃ (q : Program) (loop : ForLoop) (tree : Tree), StandsFor source q ∧
      (Tree.list q.parsed).at? [1] = some loop.lowered ∧
      (Tree.list q.resolved).at? [1] = some tree ∧
      let m := (Machine.initial 0 (.still 0)).after [⟨⟨0⟩, q.resolved.take 1, 40, 40⟩]
      let direct := (loop.resolvedIn []).run 40 40
      RunsAs m direct (Exec.execute 40 40 tree) ∧
        ((stateAfter direct m).after [⟨⟨0⟩, q.resolved.drop 2, 40, 40⟩]).output = #["aaa"] ∧
        (stateAfter direct m).store.bound? ⟨0⟩ (.ofText "i") = none := by
  intro source
  let parsed := Tree.list ((parse? (scan source).finish).getD {}).statements
  have hrun : Clean source ∧ (contextAt parsed [1]).all (·.scopes.isEmpty) ∧
      ((parsed.at? [1]).bind ForLoop.ofTree?).any fun loop => loop.body.declared?.isNone &&
        let m := (Machine.initial 0 (.still 0)).after [⟨⟨0⟩, (resolvedOf source).take 1, 40, 40⟩]
        let m₁ := stateAfter ((loop.resolvedIn []).run 40 40) m
        (m₁.after [⟨⟨0⟩, (resolvedOf source).drop 2, 40, 40⟩]).output == #["aaa"] &&
          (m₁.store.bound? ⟨0⟩ (.ofText "i")).isNone := by
    decide +kernel
  obtain ⟨hclean, hscopes, hloop⟩ := hrun
  obtain ⟨loop, hloop, hrun⟩ := (Option.any_eq_true _ _).1 hloop
  obtain ⟨t, ht, hloop⟩ := Option.bind_eq_some_iff.1 hloop
  obtain rfl := ForLoop.lowered_of_ofTree? hloop
  simp only [Bool.and_eq_true, Option.isNone_iff_eq_none, beq_iff_eq] at hrun
  obtain ⟨hbody, houtput, hunbound⟩ := hrun
  have hq := hclean.standsFor
  obtain ⟨S, tree, hcontext, htree, h⟩ := lowered_runs_as_for hq.accepted ht hbody
  rw [show contextAt parsed [1] = some ⟨.statement, S⟩ from hcontext] at hscopes
  obtain rfl := List.isEmpty_iff.1 hscopes
  have hclosed := closed_after [⟨⟨0⟩, (resolvedOf source).take 1, 40, 40⟩]
    (closed_initial 0 (.still 0)) (List.forall_mem_singleton.2 Nat.one_pos)
  exact ⟨_, loop, tree, hq, ht, htree, h _ hclosed 40 40, houtput, hunbound⟩

end LoxLang
