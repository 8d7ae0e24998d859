import LoxLang.Proofs.Outcome
import LoxLang.Tree.Parser

/-!
# The parser over positions

The state of `LoxLang.Parser` holds the tokens that are still ahead, so nothing can be said there
about where the parser has looked. Here the rules of the grammar run over the whole list of tokens
and a position in it. The token ahead is looked up at the position, and the token that was taken
last is looked up at the position before it. Whatever could go wrong with a position is a way to
stop (`Halt`): a look behind the last token, a look before the first one, a loop that goes on for
more rounds than it is given.

That none of this ever happens, and that this parser gives what the other one gives, follows from
`LoxLang.Proofs.Grammar.Forks`.
-/

namespace LoxLang.Cursor

open LoxLang.Parser (Interrupt Input Recovery startsStatement rescue declaration programFrom)

/-- Why a part of the parser stops early. -/
inductive Halt where
  | stopped (why : Interrupt)
  /-- The token before the first one is looked up. -/
  | beforeFirst
  /-- A loop has not ended in the rounds that it was given. -/
  | unended
deriving DecidableEq, Repr

/-- All tokens, a position among them, and the problems found so far. -/
structure State where
  tokens : List Token
  position : Nat := 0
  /-- The last of all positions that the parser has been at. -/
  furthest : Nat := 0
  problems : Array Diagnostic := #[]

/-- Reading changes the state, or it halts. -/
abbrev Read := EStateM Halt State

/-! ## Tokens -/

/-- The token at the position. -/
def peek : Read Token := fun s =>
  match s.tokens[s.position]? with
  | some t => .ok t s
  | none => .error (.stopped .outOfTokens) s

/-- The token before the position. -/
def previous : Read Token := fun s =>
  match s.position with
  | 0 => .error .beforeFirst s
  | before + 1 =>
    match s.tokens[before]? with
    | some t => .ok t s
    | none => .error (.stopped .outOfTokens) s

/-- The token at the position ends the program. -/
def atEnd : Read Bool := do
  let t ← peek
  return t.kind == .eof

/-- The state at the next position. -/
def State.next (s : State) : State :=
  { s with
    position := s.position + 1
    furthest := max s.furthest (s.position + 1) }

/-- Go to the next position. -/
def move : Read Unit := fun s =>
  .ok () s.next

/-- Go past the token ahead, unless it ends the program. The answer is the token that is then
before the position. -/
def advance : Read Token := do
  if ← atEnd then previous
  else
    move
    previous

/-- Report a problem at a token. -/
def report (t : Token) (problem : Problem) : Read Unit := fun s =>
  .ok () { s with problems := s.problems.push (.ofToken t problem) }

/-- The token ahead is of the given kind. At the end of the program no kind counts. -/
def check (kind : Token.Kind) : Read Bool := do
  if ← atEnd then return false
  else
    let t ← peek
    return t.kind == kind

/-- Take the token ahead if it is of one of the given kinds. -/
def accept? : List Token.Kind → Read (Option Token)
  | [] => return none
  | kind :: kinds => do
    if ← check kind then some <$> advance
    else accept? kinds

/-- Report that something else is needed here, and stop. -/
def fail {α : Type} (what : Expected) : Read α := do
  let t ← peek
  report t (.expected what)
  throw (.stopped .syntaxProblem)

/-- Take a token of the given kind, or report that it is missing. -/
def expect (kind : Token.Kind) (what : Expected) : Read Token := do
  if ← check kind then advance
  else fail what

/-- The rules of the grammar over positions. -/
instance : Input Read where
  peek := peek
  report := report
  check := check
  accept? := accept?
  expect := expect
  fail := fail
  tooDeep := throw (.stopped .tooDeep)
  unended _ := throw .unended

/-! ## Recovery -/

/-- Go on to the next likely start of a statement. -/
def skip : Nat → Read Unit
  | 0 => throw .unended
  | fuel + 1 => do
    if ← atEnd then return ()
    else
      let last ← previous
      let t ← peek
      if last.kind == .semicolon || startsStatement t.kind then return ()
      else
        let _ ← advance
        skip fuel

/-- Go past the token ahead and on to the next likely start of a statement. -/
def synchronize (fuel : Nat) : Read Unit := do
  let _ ← advance
  skip fuel

/-- A declaration that ends in a syntax problem becomes a null statement. -/
def recover (fuel : Nat) : Read Tree → Read Tree :=
  rescue (.stopped .syntaxProblem) do
    synchronize fuel
    return .null

/-- The recovery of the rules over positions. -/
instance : Recovery Read where
  recover := recover

/-! ## Programs -/

/-- A null statement in place of one that is nested too deeply. -/
def giveUp (fuel : Nat) : Read Tree := do
  let t ← peek
  report t .tooDeep
  synchronize fuel
  return .null

/-- A statement of the program that is nested too deeply becomes a null statement. -/
def recoverDepth (fuel : Nat) : Read Tree → Read Tree :=
  rescue (.stopped .tooDeep) (giveUp fuel)

/-- The statements of a program, with nesting of at most `room` and at most `fuel` rounds of each
loop. -/
def program (fuel room : Nat) (tokens : List Token) : EStateM.Result Halt State (List Tree) :=
  programFrom (recoverDepth fuel (declaration fuel room)) fuel [] { tokens }

/-! ## Looking at tokens -/

section Tokens

variable {s : State} {t : Token} {kind : Token.Kind}

theorem peek_eq (h : s.tokens[s.position]? = some t) : peek s = .ok t s := by
  simp [peek, h]

theorem peek_of_none (h : s.tokens[s.position]? = none) :
    peek s = .error (.stopped .outOfTokens) s := by
  simp [peek, h]

theorem atEnd_eq (h : s.tokens[s.position]? = some t) : atEnd s = .ok (t.kind == .eof) s := by
  unfold atEnd
  rw [bind_of_ok (peek_eq h)]
  rfl

theorem atEnd_of_none (h : s.tokens[s.position]? = none) :
    atEnd s = .error (.stopped .outOfTokens) s := by
  unfold atEnd
  rw [bind_of_error (peek_of_none h)]

theorem previous_next (h : s.tokens[s.position]? = some t) : previous s.next = .ok t s.next := by
  simp [previous, State.next, h]

theorem advance_eq (h : s.tokens[s.position]? = some t) (ht : t.kind ≠ .eof) :
    advance s = .ok t s.next := by
  unfold advance
  rw [bind_of_ok (atEnd_eq h), if_neg (by simpa using ht)]
  exact previous_next h

theorem check_eq (h : s.tokens[s.position]? = some t) (hk : kind ≠ .eof) :
    check kind s = .ok (t.kind == kind) s := by
  unfold check
  rw [bind_of_ok (atEnd_eq h)]
  by_cases ht : t.kind = .eof
  · rw [if_pos (by simpa using ht), ht, beq_eq_false_iff_ne.2 hk.symm]
    rfl
  · rw [if_neg (by simpa using ht), bind_of_ok (peek_eq h)]
    rfl

theorem check_of_none (h : s.tokens[s.position]? = none) :
    check kind s = .error (.stopped .outOfTokens) s := by
  unfold check
  rw [bind_of_error (atEnd_of_none h)]

/-- A token of one of the kinds is taken. -/
theorem accept_of_mem (h : s.tokens[s.position]? = some t) (ht : t.kind ≠ .eof) :
    ∀ {kinds : List Token.Kind}, .eof ∉ kinds → t.kind ∈ kinds →
      accept? kinds s = .ok (some t) s.next
  | kind :: kinds, hk, hmem => by
    obtain ⟨hkind, hkinds⟩ := not_or.1 (mt List.mem_cons.2 hk)
    unfold accept?
    rw [bind_of_ok (check_eq h (Ne.symm hkind))]
    by_cases he : t.kind = kind
    · rw [if_pos (by simpa using he)]
      show EStateM.map some advance s = _
      unfold EStateM.map
      rw [advance_eq h ht]
    · rw [if_neg (by simpa using he)]
      exact accept_of_mem h ht hkinds ((List.mem_cons.1 hmem).resolve_left he)

theorem accept_of_not_mem (h : s.tokens[s.position]? = some t) :
    ∀ {kinds : List Token.Kind}, .eof ∉ kinds → t.kind ∉ kinds → accept? kinds s = .ok none s
  | [], _, _ => rfl
  | kind :: kinds, hk, hmem => by
    obtain ⟨hkind, hkinds⟩ := not_or.1 (mt List.mem_cons.2 hk)
    obtain ⟨hne, hrest⟩ := not_or.1 (mt List.mem_cons.2 hmem)
    unfold accept?
    rw [bind_of_ok (check_eq h (Ne.symm hkind)), if_neg (by simpa using hne)]
    exact accept_of_not_mem h hkinds hrest

theorem accept_of_none (h : s.tokens[s.position]? = none) {kinds : List Token.Kind}
    (hk : kinds ≠ []) : accept? kinds s = .error (.stopped .outOfTokens) s := by
  cases kinds with
  | nil => exact absurd rfl hk
  | cons kind kinds =>
    unfold accept?
    rw [bind_of_error (check_of_none h)]

theorem fail_eq {α : Type} (h : s.tokens[s.position]? = some t) (what : Expected) :
    (fail what : Read α) s = .error (.stopped .syntaxProblem)
      { s with problems := s.problems.push (.ofToken t (.expected what)) } := by
  unfold fail
  rw [bind_of_ok (peek_eq h)]
  rfl

theorem expect_of_eq (h : s.tokens[s.position]? = some t) (hk : kind ≠ .eof) (ht : t.kind = kind)
    (what : Expected) : expect kind what s = .ok t s.next := by
  unfold expect
  rw [bind_of_ok (check_eq h hk), if_pos (by simpa using ht)]
  exact advance_eq h (ht ▸ hk)

theorem expect_of_ne (h : s.tokens[s.position]? = some t) (hk : kind ≠ .eof) (ht : t.kind ≠ kind)
    (what : Expected) : expect kind what s = fail what s := by
  unfold expect
  rw [bind_of_ok (check_eq h hk), if_neg (by simpa using ht)]

end Tokens

end LoxLang.Cursor
