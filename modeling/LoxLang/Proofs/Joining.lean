import LoxLang.Proofs.AlikeResolution
import LoxLang.Proofs.Marks
import LoxLang.Proofs.Seams
import LoxLang.Proofs.Sources

/-!
# One program below another

A program, a line feed and a second program stand for the statements of both (`StandsFor.join`): the
resolver comes back to the top level after each statement, and so it walks the second program as if
it were on its own. Running both as one then shows the same as running one after the other
(`run_joined`). Only the lines of errors differ. An error at a token of the second program is on a
line further down by the lines of the first one, and an error at a token of the first program, which
the second one may have called, stays where it is.

The line of an error does not tell which program its token is of. So each token is given its program
as a mark (`Token.marked`), which it keeps through parsing, resolution and execution, and both runs
are compared with the run of the marked programs (`Session.runBoth`): `Json.unmarked` says which
line a marked line stands for in each of them.
-/

namespace LoxLang

open Resolver (Passes StateLike FramesLike)

/-! ## Resolution -/

/-- A change of lines leaves all names alone. -/
theorem avoids_ofLines (line : Json → Json → Prop) : (Change.ofLines line).Avoids fun _ => True :=
  ⟨fun _ _ => trivial, fun _ => .inl rfl, fun _ => rfl, trivial, trivial⟩

theorem StandsFor.uses {source : String} {q : Program} (h : StandsFor source q) :
    ∀ t ∈ q.resolved, t.Uses fun _ => True := by
  intro t ht a ha
  obtain ⟨ts, e, hts, -, hgenuine⟩ := scan_genuine source
  rw [Scan.finish_eq] at hts
  have hmem : a ∈ ts := by
    rw [← (List.append_inj' hts rfl).1]
    exact Array.mem_toList_iff.2 (h.mem_tokens t ht a ha)
  obtain ⟨⟨word, hword, -⟩, -⟩ := (hgenuine a hmem).1
  exact ⟨word, hword, trivial⟩

/-- The resolver at the top level, where no function and no class is open. -/
theorem stateLike_start (ρ : Change) (known : Name → Prop) :
    StateLike ρ known [false] (.none, .none) {} {} :=
  ⟨.globals, rfl, rfl, Nat.le_refl _⟩

section Joined

variable {first second : String} {q₁ q₂ : Program} {line : Json → Json → Prop} {f : Token → Token}

theorem StandsFor.statementLike (h : StandsFor second q₂) (hzero : line (.int 0) (.int 0))
    (hf : ∀ a ∈ (scan second).tokens, Moves line f a) :
    List.Forall₂ (StatementLike (.ofLines line)) q₂.resolved
      (q₂.resolved.map (Tree.mapTokens f)) := by
  rw [List.forall₂_map_right_iff, List.forall₂_same]
  exact fun t ht => statementLike_mapTokens (h.wellFormed t ht) hzero fun a ha =>
    hf a (h.mem_tokens t ht a ha)

/-- The resolver is back at the top level after a program. -/
theorem StandsFor.atTop (h : StandsFor first q₁) {s : Resolver.State}
    (hp : Passes Tree.maxDepth {} q₁.parsed q₁.resolved s) (hs : s.problems = #[])
    (ρ : Change) (known : Name → Prop) :
    StateLike ρ known [false] (.none, .none) {} s := by
  have hmoves : ∀ a ∈ (scan first).tokens, Moves (fun _ _ => True) id a :=
    fun _ _ => ⟨rfl, rfl, trivial⟩
  have hlike := h.statementLike trivial hmoves
  obtain ⟨_, -, hstate⟩ := hp.resolved.alike (avoids_ofLines _) rfl
    (hlike.imp fun _ _ h => h.1) h.uses (stateLike_start _ _)
  have hscopes : FramesLike ρ known [false] [] s.scopes := by
    rw [hstate.scopes.eq_nil]
    exact .globals
  exact ⟨hscopes, rfl, hstate.kinds, by simp [hs]⟩

/-- A program that changes only the lines of its tokens is resolved as before, at the start and also
below another program. -/
theorem StandsFor.passesFrom (h : StandsFor second q₂)
    (hf : ∀ a ∈ (scan second).tokens, Moves (fun _ _ => True) f a) {s₁ : Resolver.State}
    (hs₁ : StateLike (.ofLines fun _ _ => True) (fun _ => True) [false] (.none, .none) {} s₁) :
    ∃ s, Passes Tree.maxDepth s₁ (q₂.parsed.map (Tree.mapTokens f))
        (q₂.resolved.map (Tree.mapTokens f)) s ∧ s.problems = #[] := by
  obtain ⟨s₂, hp₂, hs₂⟩ := h.accepted.passes
  have hlike := h.statementLike trivial hf
  obtain ⟨s, hp, hstate⟩ := hp₂.resolved.alike (avoids_ofLines _) rfl
    (hlike.imp fun _ _ h => h.1) h.uses hs₁
  refine ⟨s, hp.congr ?_, ?_⟩
  · have hcomp : Tree.bare ∘ Tree.mapTokens f = Tree.mapTokens f ∘ Tree.bare :=
      funext (Tree.bare_mapTokens f)
    rw [List.map_map, List.map_map, hcomp, ← List.map_map, ← List.map_map, hp₂.bare_eq]
  · have hsize := hstate.problems
    rw [hs₂] at hsize
    exact Array.eq_empty_of_size_eq_zero (Nat.le_zero.1 hsize)

/-- A program and another one below it stand for the statements of both, unless they are nested too
deeply. -/
theorem StandsFor.join (h₁ : StandsFor first q₁) (h₂ : StandsFor second q₂)
    (hopen : ¬EndsInComment first)
    (hdepth : ¬Parser.DepthReported
      ((parse? (scan (first ++ "\n" ++ second)).finish).getD {}).problems) :
    StandsFor (first ++ "\n" ++ second)
      ⟨q₁.parsed ++ q₂.parsed.map (Tree.mapTokens (Token.down (scan first).line)),
        q₁.resolved ++ q₂.resolved.map (Tree.mapTokens (Token.down (scan first).line))⟩ := by
  have hparsed := parse_append h₁.scanned h₂.scanned hopen h₁.parsed h₂.parsed hdepth
  obtain ⟨s₁, hp₁, hs₁⟩ := h₁.accepted.passes
  obtain ⟨s, hp, hs⟩ := h₂.passesFrom (f := Token.down (scan first).line)
    (fun _ _ => ⟨rfl, rfl, trivial⟩) (h₁.atTop hp₁ hs₁ _ _)
  obtain ⟨hstatements, hproblems⟩ := resolve_of_passes (hp₁.append hp)
    (fun t ht => (wellFormed_of_parse hparsed t ht).formed.isNull_eq) hs
  exact ⟨(scan_append h₁.scanned h₂.scanned hopen).1, hparsed, hstatements, hproblems⟩

end Joined

/-! ## Marked programs -/

/-- The line of a token, and whether the token is of the second of two programs. -/
def Json.marked (second : Bool) (line : Json) : Json :=
  .array [.bool second, line]

/-- The line that a marked one stands for, where the second program begins `k` lines further down
than the first one. A line without a mark is one of a statement that has no token. -/
def Json.unmarked (k : Int) : Json → Json
  | .array [.scalar (.bool false), line] => line
  | .array [.scalar (.bool true), line] => line.lineDown k
  | line => line

/-- The token with its program in its line. -/
def Token.marked (second : Bool) (t : Token) : Token :=
  { t with line := t.line.marked second }

/-- Run a program all of whose tokens are marked. -/
def Session.runMarked (second : Bool) (source : String) : Step Unit := do
  let tokens := (scan source).finish.map (Token.marked second)
  let resolved ← resolveNames ((parse? tokens).getD {}).statements
  executeUnlessError resolved

/-- Run two programs one after the other, and let each error tell in its line which of them its
token is of. -/
def Session.runBoth (first second : String) : Step Unit := do
  runMarked false first
  runMarked true second

variable {x x' : Step Unit} {s s' : Session}

/-- After the steps the sessions show the same. -/
theorem ShowsAt.stateAfter_eq {read : Json → Json} (h : ShowsAt read x x' s s') :
    (stateAfter x s).shown = (stateAfter x' s').shownAt read := by
  unfold ShowsAt at h
  unfold stateAfter
  split at h
  · next hx hx' => rwa [hx, hx']
  · next hx hx' =>
    rw [hx, hx']
    exact h.2
  · exact h.elim

/-! ## Runs -/

/-- Where the first of two alike runs has ended, so has the second one. -/
theorem RunsAlike.exists_ok {ρ : Change} {s₁ : Session} (h : RunsAlike ρ x x' s s')
    (hx : x s = .ok () s₁) : ∃ s₁', x' s' = .ok () s₁' ∧ SessionLike ρ s₁ s₁' := by
  unfold RunsAlike at h
  rw [hx] at h
  split at h
  · next hx₁ hx₁' =>
    cases hx₁
    exact ⟨_, hx₁', h⟩
  · next hx₁ _ => cases hx₁
  · exact h.elim

/-- After a run the machine is back in its globals, and its trace can be opened. -/
theorem inOrder_of_run {source : String} {detail : Nat} {clock : Clock}
    (h : Session.run source (.start detail clock) = .ok () s) :
    s.machine.current = s.machine.globals ∧ s.machine.trace.blocked = false := by
  have horder := (InOrder.start detail clock).after [.run source]
  have hs : ((Observation.start detail clock).after [.run source]).session = s := by
    rw [Observation.session_after]
    show stateAfter (Session.run source) (.start detail clock) = s
    unfold stateAfter
    rw [h]
  rw [← hs]
  exact ⟨horder.current, horder.unblocked⟩

section Runs

variable {first second : String} {q q₁ q₂ : Program} {detail : Nat} {clock : Clock}

/-- A marked program is run by executing the resolved program with its marks. -/
theorem StandsFor.runMarked_eq (h : StandsFor first q) (mark : Bool) {s : Session}
    (hblocked : s.machine.trace.blocked = false) (hs : s.reporter.hadError = false) :
    ∃ m, Traced s.machine m ∧ Session.runMarked mark first s =
      Session.execute (q.resolved.map (Tree.mapTokens (Token.marked mark))) ⟨m, s.reporter⟩ := by
  have hparsed := (parse_map (f := Token.marked mark) ⟨fun _ => rfl, fun _ => rfl⟩).2
    ⟨_, h.parsed, rfl⟩
  have hnull : ∀ t ∈ q.parsed.map (Tree.mapTokens (Token.marked mark)), t.isNull = false := by
    refine List.forall_mem_map.2 fun t ht => ?_
    rw [Tree.isNull_mapTokens]
    exact (wellFormed_of_parse h.parsed t ht).formed.isNull_eq
  obtain ⟨s₁, hp, hs₁⟩ := h.passesFrom (f := Token.marked mark) (fun _ _ => ⟨rfl, rfl, trivial⟩)
    (stateLike_start _ _)
  obtain ⟨hstatements, hproblems⟩ := resolve_of_passes hp hnull hs₁
  obtain ⟨m, ht, hrun⟩ := Session.resolve_execute_eq hblocked hstatements
  refine ⟨m, ht, ?_⟩
  unfold Session.runMarked
  rw [hparsed, Option.getD_some, hrun, hproblems, executeUnlessError_eq]
  exact if_neg (by simpa [Reporter.reportAll] using hs)

/-- The line is the one that the marked line stands for. -/
abbrev LineOf (k : Int) (line marked : Json) : Prop :=
  line = marked.unmarked k

theorem Json.lineDown_zero (line : Json) : line.lineDown 0 = line := by
  unfold Json.lineDown
  split
  · rw [Int.add_zero]
    rfl
  · rfl

theorem Json.lineDown_lineDown (j k : Int) (line : Json) :
    (line.lineDown j).lineDown k = line.lineDown (j + k) := by
  cases line with
  | scalar x =>
    cases x with
    | int n => simp [Json.lineDown, Json.int, Int.add_assoc]
    | _ => rfl
  | _ => rfl

/-- The statements of the second program, further down, are like those with marks. -/
theorem StandsFor.likeSecond (k : Int)
    (hwell : ∀ t ∈ q₂.resolved.map (Tree.mapTokens (Token.down k)), WellFormed .statement t) :
    List.Forall₂ (StatementLike (.ofLines (LineOf k)))
      (q₂.resolved.map (Tree.mapTokens (Token.down k)))
      (q₂.resolved.map (Tree.mapTokens (Token.marked true))) := by
  have hcomp : (Token.marked true ∘ Token.down (-k)) ∘ Token.down k = Token.marked true := by
    funext a
    simp only [Function.comp_apply, Token.marked, Token.down, Json.lineDown_lineDown,
      Int.add_right_neg, Json.lineDown_zero]
  have hmap (t : Tree) : t.mapTokens (Token.marked true) =
      (t.mapTokens (Token.down k)).mapTokens (Token.marked true ∘ Token.down (-k)) := by
    rw [Tree.mapTokens_mapTokens, hcomp]
  rw [List.forall₂_map_left_iff, List.forall₂_map_right_iff, List.forall₂_same]
  intro t ht
  rw [hmap]
  refine statementLike_mapTokens (hwell _ (List.mem_map_of_mem ht)) rfl fun a _ => ⟨rfl, rfl, ?_⟩
  show a.line = (a.line.lineDown (-k)).lineDown k
  rw [Json.lineDown_lineDown, Int.add_left_neg, Json.lineDown_zero]

/-- Where the first program has ended without an error, statements that are like those of the second
one show what the marked programs do. -/
theorem showsAt_runBoth (h₁ : StandsFor first q₁) (h₂ : StandsFor second q₂) {k : Int}
    {ts : List Tree} (hts : List.Forall₂ (StatementLike (.ofLines (LineOf k))) ts
      (q₂.resolved.map (Tree.mapTokens (Token.marked true))))
    {m m₂ : Machine} {s : Session} (ht : Traced (.initial detail clock) m)
    (hx : Session.execute q₁.resolved ⟨m, {}⟩ = .ok () s)
    (hs : s.reporter.hadRuntimeError = false) (hblocked : s.machine.trace.blocked = false)
    (ht₂ : Traced s.machine m₂) :
    ShowsAt (Json.unmarked k) (Session.execute ts) (Session.runBoth first second)
      ⟨m₂, s.reporter⟩ (.start detail clock) := by
  obtain ⟨m', ht', hfirst⟩ := h₁.runMarked_eq false (s := .start detail clock) rfl rfl
  have hstart : SessionLike (.ofLines (LineOf k)) ⟨m, {}⟩ ⟨m', {}⟩ :=
    ⟨(machineLike_initial _ detail clock).traced ht ht', ⟨rfl, rfl, .nil, .nil⟩⟩
  have hstatements : List.Forall₂ (StatementLike (.ofLines (LineOf k))) q₁.resolved
      (q₁.resolved.map (Tree.mapTokens (Token.marked false))) :=
    h₁.statementLike rfl fun _ _ => ⟨rfl, rfl, rfl⟩
  obtain ⟨s', hx', hlike⟩ :=
    (runsAlike_execute hstatements hstart ht.current_eq ht'.current_eq).exists_ok hx
  have hback := (Session.judgement_leaves.execute _ ⟨m, {}⟩).ok hx
  have hback' := (Session.judgement_leaves.execute _ ⟨m', {}⟩).ok hx'
  obtain ⟨hreporter, -⟩ := @execute_append _ [] _ _ hx hs
  have hblocked' : s'.machine.trace.blocked = false := by
    obtain ⟨p, hleft, hright, hp⟩ := hlike.machine
    rw [← hright, hp.blocked, hleft, hblocked]
  -- the second program is executed after it
  obtain ⟨m₂', ht₂', hsecond⟩ := h₂.runMarked_eq true hblocked'
    (hlike.reporter.hadError.trans (congrArg Reporter.hadError hreporter))
  have hboth : Session.runBoth first second (.start detail clock) = _ :=
    (bind_of_ok (hfirst.trans hx')).trans hsecond
  have hlike₂ : SessionLike (.ofLines (LineOf k)) ⟨m₂, s.reporter⟩ ⟨m₂', s'.reporter⟩ :=
    ⟨hlike.machine.traced ht₂ ht₂', hlike.reporter⟩
  have hcur : m₂.current = m₂.globals := by
    obtain ⟨_, -, rfl⟩ := ht₂
    exact hback.current.trans (ht.current_eq.trans hback.globals.symm)
  have hcur' : m₂'.current = m₂'.globals := by
    obtain ⟨_, -, rfl⟩ := ht₂'
    exact hback'.current.trans (ht'.current_eq.trans hback'.globals.symm)
  have hruns := runsAlike_execute hts hlike₂ hcur hcur'
  simpa only [ShowsAt, hboth] using hruns.showsAt fun _ _ h => h

/-- Running two programs one after the other shows the same as running them as one, a line feed
between them, but for the lines of errors at tokens of the second program. Both runs show what the
marked programs do: an error at a token of the first program is at the line of the token in both of
them, and an error at a token of the second program is further down by one line and the line feeds
of the first where they are run as one. The programs have no static problem, the first one does not
end in an open comment, and it ends without an error. -/
theorem run_joined (detail : Nat) (clock : Clock) (h₁ : Clean first) (h₂ : Clean second)
    (hopen : ¬EndsInComment first)
    (hdepth : ¬Parser.DepthReported
      ((parse? (scan (first ++ "\n" ++ second)).finish).getD {}).problems)
    {s : Session} (hrun : Session.run first (.start detail clock) = .ok () s)
    (hs : s.reporter.hadRuntimeError = false) :
    ShowsAt (Json.unmarked 0) (Session.run second) (Session.runBoth first second)
      s (.start detail clock) ∧
    ShowsAt (Json.unmarked (1 + (first.toList.count '\n' : Nat)))
      (Session.run (first ++ "\n" ++ second)) (Session.runBoth first second)
      (.start detail clock) (.start detail clock) := by
  obtain ⟨q₁, h₁⟩ := h₁.exists_program
  obtain ⟨q₂, h₂⟩ := h₂.exists_program
  obtain ⟨-, hblocked⟩ := inOrder_of_run hrun
  obtain ⟨m, ht, hfirst⟩ := h₁.run_eq (s := .start detail clock) rfl rfl
  rw [hfirst] at hrun
  refine ⟨?_, ?_⟩
  · obtain ⟨hreporter, -⟩ := @execute_append _ [] _ _ hrun hs
    obtain ⟨m₂, ht₂, hsecond⟩ := h₂.run_eq hblocked (congrArg Reporter.hadError hreporter)
    have hsame : q₂.resolved.map (Tree.mapTokens (Token.down 0)) = q₂.resolved := by
      have hdown : Token.down 0 = id := funext fun a => by simp [Token.down, Json.lineDown_zero]
      rw [hdown, funext Tree.mapTokens_id, List.map_id']
    have hlike := StandsFor.likeSecond 0 (hsame.symm ▸ h₂.wellFormed)
    rw [hsame] at hlike
    have hshows := showsAt_runBoth h₁ h₂ hlike ht hrun hs hblocked ht₂
    simpa only [ShowsAt, hsecond] using hshows
  · have hjoin := h₁.join h₂ hopen hdepth
    obtain ⟨m', ht', hboth⟩ := hjoin.run_eq (s := .start detail clock) rfl rfl
    -- the first program goes the same way on a machine with another trace
    have hstart : SessionLike (.ofLines Eq) ⟨m, {}⟩ ⟨m', {}⟩ :=
      ⟨(machineLike_initial _ detail clock).traced ht ht', ⟨rfl, rfl, .nil, .nil⟩⟩
    have hsame := List.forall₂_same.2 fun t ht => statementLike_refl (h₁.wellFormed t ht)
    obtain ⟨s', hrun', hlike⟩ :=
      (runsAlike_execute hsame hstart ht.current_eq ht'.current_eq).exists_ok hrun
    have hs' := hlike.reporter.hadRuntimeError.trans hs
    have hblocked' : s'.machine.trace.blocked = false := by
      obtain ⟨p, hleft, hright, hp⟩ := hlike.machine
      rw [← hright, hp.blocked, hleft, hblocked]
    obtain ⟨-, happend⟩ := @execute_append _
      (q₂.resolved.map (Tree.mapTokens (Token.down (scan first).line))) _ _ hrun' hs'
    have hshows := showsAt_runBoth h₁ h₂ (StandsFor.likeSecond (scan first).line fun t ht =>
      hjoin.wellFormed t (List.mem_append_right _ ht)) ht' hrun' hs' hblocked' (.refl _)
    rw [← scan_line]
    simpa only [ShowsAt, hboth.trans happend] using hshows

end Runs

theorem eq_ok_stateAfter (h : (x s matches .ok ..) = true) : x s = .ok () (stateAfter x s) := by
  unfold stateAfter
  split at h
  · next hx => rw [hx]
  · cases h

/-- A function with an operator on the second line. -/
def negation : String := "fun f(x) \x7b\n  return -x; \x7d"

/-- A program with the same operator on its second line. -/
def negatedText : String := "var a = \"a\";\nprint -a;"

/-- A program that calls the function. -/
def negationCall : String := "f(\"a\");"

/-- The errors are at the same operator on the same line of different programs. The one of the second
program is two lines further down where the programs are run as one, and the one of the first is
not. -/
theorem run_joined_negation :
    let start := Session.start 0 (.still 0)
    let s := stateAfter (Session.run negation) start
    let message (line : String) : List String := ["Operand must be a number.\n[line " ++ line ++ "]"]
    (stateAfter (Session.run negatedText) s).shown.messages = message "2" ∧
    (stateAfter (Session.run (negation ++ "\n" ++ negatedText)) start).shown.messages = message "4" ∧
    (stateAfter (Session.run negationCall) s).shown.messages = message "2" ∧
    (stateAfter (Session.run (negation ++ "\n" ++ negationCall)) start).shown.messages =
      message "2" := by
  intro start s message
  have hopen : ∀ p ∈ Piece.pieces negation.toList, ¬p.OpenComment := by decide +kernel
  have hclosed : ¬EndsInComment negation := by
    rintro ⟨p, hp, ho⟩
    exact hopen p hp ho
  have hrun : Session.run negation start = .ok () s := eq_ok_stateAfter (by decide +kernel)
  have hjoin (second : String) (h : Clean second) (hboth : Clean (negation ++ "\n" ++ second)) :=
    run_joined 0 (.still 0) (by decide +kernel) h hclosed
      (by simp [Parser.DepthReported, hboth.parsed]) hrun (by decide +kernel)
  obtain ⟨htwo, hone⟩ := hjoin negatedText (by decide +kernel) (by decide +kernel)
  obtain ⟨htwo', hone'⟩ := hjoin negationCall (by decide +kernel) (by decide +kernel)
  rw [htwo.stateAfter_eq, hone.stateAfter_eq, htwo'.stateAfter_eq, hone'.stateAfter_eq]
  decide +kernel

end LoxLang
