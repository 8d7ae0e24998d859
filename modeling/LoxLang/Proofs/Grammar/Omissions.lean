import LoxLang.Proofs.Grammar.Boundaries
import LoxLang.Proofs.Grammar.Shapes
import Mathlib.Data.List.Perm.Subperm

/-!
# What the parser leaves out

A declaration with a syntax problem in it is left out: a null entry stands in its place, and a
message has been reported before. To say which message belongs to which entry, `Noting` is the
parser that leaves in each such place the number of the message that stopped the declaration.
Without the numbers it is the parser (`Alongside`). The numbers increase along the program, so no
two entries share a message, and each is the number of a message that stops a declaration
(`Filled`). A message that stops nothing, such as one about too many arguments, belongs to no entry.

So there are at most as many null entries as messages (`parse_omissions_reported`). Without messages
there are none, and what is parsed is of the right form at all depths (`wellFormed_of_shaped`).
-/

namespace LoxLang

namespace Tree

/-! ## Entries -/

mutual

/-- The entries of the lists of statements and methods in a statement, at all depths. -/
def entries : Tree → List Tree
  | block (list items) => entriesIn items
  | ifElse _ thenBranch elseBranch => thenBranch.entries ++ elseBranch.entries
  | whileLoop _ body => body.entries
  | funDecl _ _ (list body) => entriesIn body
  | classDecl _ _ (list methods) => entriesIn methods
  | _ => []

/-- The entries of a list of statements, and those of the statements. -/
def entriesIn : List Tree → List Tree
  | [] => []
  | t :: ts => t :: (t.entries ++ entriesIn ts)

end

/-- How many statements are left out of a list, at all depths. -/
def omissions (ts : List Tree) : Nat :=
  (entriesIn ts).countP isNull

/-- The number of a message, in the place of a statement. -/
def note (k : Nat) : Tree :=
  .scalar (.int k)

/-- The number of a message, if one stands here. -/
def note? : Tree → Option Nat
  | scalar (.int k) => some k.toNat
  | _ => none

mutual

/-- A statement with null entries for the numbers in it. -/
def unnoted : Tree → Tree
  | block (list items) => .block (.list (unnotedIn items))
  | ifElse condition thenBranch elseBranch =>
    .ifElse condition thenBranch.unnoted elseBranch.unnoted
  | whileLoop condition body => .whileLoop condition body.unnoted
  | funDecl name params (list body) => .funDecl name params (.list (unnotedIn body))
  | classDecl name superclass (list methods) =>
    .classDecl name superclass (.list (unnotedIn methods))
  | t => t

/-- A list of statements with null entries for the numbers. -/
def unnotedIn : List Tree → List Tree
  | [] => []
  | t :: ts => (if t.note?.isSome then .null else t.unnoted) :: unnotedIn ts

end

/-- The numbers in a list of statements, at all depths. -/
def notes (ts : List Tree) : List Nat :=
  (entriesIn ts).filterMap note?

theorem entriesIn_append (ts us : List Tree) :
    entriesIn (ts ++ us) = entriesIn ts ++ entriesIn us := by
  induction ts with
  | nil => simp [entriesIn]
  | cons t ts ih => simp [entriesIn, ih]

theorem unnotedIn_append (ts us : List Tree) :
    unnotedIn (ts ++ us) = unnotedIn ts ++ unnotedIn us := by
  induction ts with
  | nil => simp [unnotedIn]
  | cons t ts ih => simp [unnotedIn, ih]

end Tree

namespace Parser

open LoxLang.Tree (entriesIn omissions note unnotedIn notes)

/-! ## The parser with numbers -/

namespace Noting

/-- A declaration that ends in a syntax problem becomes the number of the last message. -/
def recover : Parse Tree → Parse Tree :=
  rescue .syntaxProblem fun s =>
    (do synchronize; return note (s.problems.size - 1) : Parse Tree) s

/-- The rules go on with numbers. -/
abbrev recovery : Recovery Parse where
  recover _ := recover

/-- A statement of the program that is nested too deeply becomes the number of the message that says
so. -/
def recoverDepth : Parse Tree → Parse Tree :=
  rescue .tooDeep fun s => (do
    let t ← peek
    report t .tooDeep
    synchronize
    return note s.problems.size : Parse Tree) s

/-- The statements of a program, with the numbers of messages for those that are left out. -/
def program (room : Nat) (tokens : List Token) : EStateM.Result Interrupt State (List Tree) :=
  let fuel := tokens.length + 1
  programFrom (recoverDepth (@declaration _ _ _ recovery fuel room)) fuel [] { ahead := tokens }

end Noting

/-! ## Messages -/

/-- The number of the last message. -/
theorem State.Stopped.getElem? {s s' : State} (h : s.Stopped s') :
    s.problems.size ≤ s'.problems.size - 1 ∧
      ∃ d, s'.problems[s'.problems.size - 1]? = some d ∧ d.Stops := by
  obtain ⟨hsize, d, hd, hstops⟩ := h
  exact ⟨by omega, d, hd, hstops⟩

/-! ## Statements with numbers -/

/-- The numbers increase from `lo` on, and each is that of a message that stops a declaration. -/
def Numbers (lo : Nat) (s : State) (ks : List Nat) : Prop :=
  ks.Pairwise (· < ·) ∧ ∀ k ∈ ks, lo ≤ k ∧ ∃ d, s.problems[k]? = some d ∧ d.Stops

section Filled

variable {lo lo' : Nat} {s s' : State} {ks ks' : List Nat} {t' t u' u : Tree}
  {ts' ts us' us : List Tree}

theorem Numbers.nil : Numbers lo s [] :=
  ⟨.nil, nofun⟩

theorem Numbers.widen (h : Numbers lo' s ks) (hlo : lo ≤ lo') (hs : s.Before s') :
    Numbers lo s' ks := by
  refine ⟨h.1, fun k hk => ?_⟩
  obtain ⟨hlow, d, hd, hstops⟩ := h.2 k hk
  exact ⟨Nat.le_trans hlo hlow, d, hs.getElem? hd, hstops⟩

/-- Numbers of later messages follow. -/
theorem Numbers.append (h : Numbers lo s ks) (hlo : lo ≤ s.problems.size) (hs : s.Before s')
    (h' : Numbers s.problems.size s' ks') : Numbers lo s' (ks ++ ks') := by
  refine ⟨List.pairwise_append.2 ⟨h.1, h'.1, fun k hk k' hk' => ?_⟩, fun k hk => ?_⟩
  · obtain ⟨-, d, hd, -⟩ := h.2 k hk
    exact Nat.lt_of_lt_of_le (Array.getElem?_eq_some_iff.1 hd).1 (h'.2 k' hk').1
  · rcases List.mem_append.1 hk with hk | hk
    · exact (h.widen (Nat.le_refl lo) hs).2 k hk
    · exact (h'.widen hlo (.refl s')).2 k hk

/-- The second list is the first one with a null entry for each number, and the numbers are those of
messages in `s`, from `lo` on. -/
structure FilledIn (lo : Nat) (s : State) (ts' ts : List Tree) : Prop where
  trees : ts = unnotedIn ts'
  numbers : Numbers lo s (notes ts')
  count : omissions ts = (notes ts').length

/-- The same of two statements, which are not left out themselves. -/
structure Filled (lo : Nat) (s : State) (t' t : Tree) : Prop where
  tree : t = t'.unnoted
  numbers : Numbers lo s (t'.entries.filterMap Tree.note?)
  count : t.entries.countP Tree.isNull = (t'.entries.filterMap Tree.note?).length
  kept : t'.note? = none ∧ t.isNull = false

theorem Filled.widen (h : Filled lo' s t' t) (hlo : lo ≤ lo') (hs : s.Before s') :
    Filled lo s' t' t :=
  { h with numbers := h.numbers.widen hlo hs }

theorem FilledIn.widen (h : FilledIn lo' s ts' ts) (hlo : lo ≤ lo') (hs : s.Before s') :
    FilledIn lo s' ts' ts :=
  { h with numbers := h.numbers.widen hlo hs }

theorem FilledIn.nil : FilledIn lo s [] [] :=
  ⟨rfl, .nil, rfl⟩

/-- Numbered lists can be joined. -/
theorem FilledIn.append (h : FilledIn lo s ts' ts) (hlo : lo ≤ s.problems.size) (hs : s.Before s')
    (h' : FilledIn s.problems.size s' us' us) : FilledIn lo s' (ts' ++ us') (ts ++ us) where
  trees := by rw [h.trees, h'.trees, Tree.unnotedIn_append]
  numbers := by
    have hnotes := h.numbers.append hlo hs h'.numbers
    rwa [notes, notes, ← List.filterMap_append, ← Tree.entriesIn_append] at hnotes
  count := by
    have hts := h.count
    have hus := h'.count
    unfold omissions notes at *
    rw [Tree.entriesIn_append, Tree.entriesIn_append, List.countP_append, List.filterMap_append,
      List.length_append, hts, hus]

/-- A statement that is not left out, as an entry. -/
theorem Filled.entry (h : Filled lo s t' t) : FilledIn lo s [t'] [t] where
  trees := by simp [unnotedIn, h.kept.1, h.tree]
  numbers := by
    have hnotes : notes [t'] = t'.entries.filterMap Tree.note? := by
      simp [notes, entriesIn, h.kept.1]
    rw [hnotes]
    exact h.numbers
  count := by simp [omissions, notes, entriesIn, h.kept.1, h.kept.2, h.count]

/-- A declaration that is left out, with the number of the message. -/
theorem filledIn_note {k : Nat} {d : Diagnostic} (hk : lo ≤ k) (hd : s.problems[k]? = some d)
    (hstops : d.Stops) : FilledIn lo s [note k] [.null] where
  trees := rfl
  numbers := by
    refine ⟨List.pairwise_singleton _ k, fun k' hk' => ?_⟩
    obtain rfl : k' = k := List.mem_singleton.1 hk'
    exact ⟨hk, d, hd, hstops⟩
  count := rfl

/-- The statement holds no lists of statements. -/
structure Plain (t : Tree) : Prop where
  entries : t.entries = []
  unnoted : t.unnoted = t
  kept : t.note? = none ∧ t.isNull = false

theorem Plain.filled (h : Plain t) : Filled lo s t t where
  tree := h.unnoted.symm
  numbers := by
    rw [h.entries]
    exact .nil
  count := by rw [h.entries]; rfl
  kept := h.kept

theorem Filled.block (h : FilledIn lo s ts' ts) :
    Filled lo s (.block (.list ts')) (.block (.list ts)) :=
  ⟨congrArg (fun us => Tree.block (.list us)) h.trees, h.numbers, h.count, rfl, rfl⟩

theorem Filled.funDecl (name params : Tree) (h : FilledIn lo s ts' ts) :
    Filled lo s (.funDecl name params (.list ts')) (.funDecl name params (.list ts)) :=
  ⟨congrArg (fun us => Tree.funDecl name params (.list us)) h.trees, h.numbers, h.count, rfl, rfl⟩

theorem Filled.classDecl (name parent : Tree) (h : FilledIn lo s ts' ts) :
    Filled lo s (.classDecl name parent (.list ts')) (.classDecl name parent (.list ts)) :=
  ⟨congrArg (fun us => Tree.classDecl name parent (.list us)) h.trees, h.numbers, h.count, rfl, rfl⟩

theorem Filled.whileLoop (condition : Tree) (h : Filled lo s t' t) :
    Filled lo s (.whileLoop condition t') (.whileLoop condition t) :=
  ⟨congrArg (Tree.whileLoop condition) h.tree, h.numbers, h.count, rfl, rfl⟩

theorem Filled.ifOnly (condition : Tree) (h : Filled lo s t' t) :
    Filled lo s (.ifElse condition t' .null) (.ifElse condition t .null) where
  tree := congrArg (fun u => Tree.ifElse condition u .null) h.tree
  numbers := by simpa [Tree.entries, Tree.null] using h.numbers
  count := by simpa [Tree.entries, Tree.null] using h.count
  kept := ⟨rfl, rfl⟩

theorem Filled.ifElse (condition : Tree) (h : Filled lo s t' t) (hlo : lo ≤ s.problems.size)
    (hs : s.Before s') (h' : Filled s.problems.size s' u' u) :
    Filled lo s' (.ifElse condition t' u') (.ifElse condition t u) where
  tree := congrArg₂ (Tree.ifElse condition) h.tree h'.tree
  numbers := by
    have hboth := h.numbers.append hlo hs h'.numbers
    rwa [← List.filterMap_append] at hboth
  count := by simp [Tree.entries, h.count, h'.count]
  kept := ⟨rfl, rfl⟩

/-- A statement without entries of its own, before others. -/
theorem Plain.cons (h : Plain u) (hts : FilledIn lo s ts' ts) :
    FilledIn lo s (u :: ts') (u :: ts) where
  trees := by simp [unnotedIn, h.kept.1, h.unnoted, hts.trees]
  numbers := by
    have hnotes : notes (u :: ts') = notes ts' := by simp [notes, entriesIn, h.kept.1, h.entries]
    rw [hnotes]
    exact hts.numbers
  count := by
    have hcount := hts.count
    unfold omissions notes at *
    simp [entriesIn, h.kept.1, h.kept.2, h.entries, hcount]

/-- A loop with clauses, as it is written with `while`. -/
theorem Filled.lowerFor {initializer : Option Tree} (condition increment : Option Tree)
    (hstart : ∀ t, initializer = some t → Plain t) (hlo : lo ≤ s.problems.size)
    (h : Filled lo s t' t) :
    Filled lo s (lowerFor initializer condition increment t')
      (lowerFor initializer condition increment t) := by
  have hloop {t' t : Tree} (h : Filled lo s t' t) : Filled lo s
      (Parser.lowerFor initializer condition none t')
      (Parser.lowerFor initializer condition none t) := by
    cases initializer with
    | none => exact h.whileLoop _
    | some start => exact .block ((hstart start rfl).cons (h.whileLoop _).entry)
  cases increment with
  | none => exact hloop h
  | some step =>
    have hstep : Plain (.exprStmt step) := ⟨rfl, rfl, rfl, rfl⟩
    exact hloop (.block (h.entry.append hlo (.refl s) hstep.filled.entry))

end Filled

/-! ## Two parsers side by side -/

/-- From `s` both parsers come to the same state, where they have the same problem or results with
`Q`. No message is taken back, and a syntax problem is the last message. -/
def Alongside {α : Type} (x' x : Parse α) (s : State) (Q : State → α → α → Prop) : Prop :=
  Ends x' s (fun a' s' => s.Before s' ∧ ∃ a, x s = .ok a s' ∧ Q s' a' a)
    fun e s' => s.Before s' ∧ x s = .error e s' ∧ (e = .syntaxProblem → s.Stopped s')

section Alongside

variable {α β : Type} {x' x : Parse α} {f' f : α → Parse β} {s : State} {P Q : State → α → α → Prop}
  {R : State → β → β → Prop}

theorem Alongside.imp (hx : Alongside x' x s P)
    (h : ∀ s' a' a, s.Before s' → P s' a' a → Q s' a' a) : Alongside x' x s Q :=
  Ends.imp hx (fun a' s' ⟨hs, a, ha, hP⟩ => ⟨hs, a, ha, h s' a' a hs hP⟩) fun _ _ h => h

theorem alongside_pure {a' a : α} (h : Q s a' a) : Alongside (pure a') (pure a) s Q :=
  ⟨.refl s, a, rfl, h⟩

/-- What holds of the parsers from a later state on. -/
theorem Alongside.after {s₀ : State} (hs : s₀.Before s) (h : Alongside x' x s Q) :
    Ends x' s (fun a' s' => s₀.Before s' ∧ ∃ a, x s = .ok a s' ∧ Q s' a' a)
      fun e s' => s₀.Before s' ∧ x s = .error e s' ∧ (e = .syntaxProblem → s₀.Stopped s') :=
  Ends.imp h (fun _ _ h => ⟨hs.trans h.1, h.2⟩) fun _ _ h =>
    ⟨hs.trans h.1, h.2.1, fun he => hs.stopped (h.2.2 he)⟩

/-- Two steps go alongside if each does. -/
theorem Alongside.bind (hx : Alongside x' x s P)
    (hf : ∀ s' a' a, s.Before s' → P s' a' a → Alongside (f' a') (f a) s' R) :
    Alongside (x' >>= f') (x >>= f) s R := by
  cases hr : x' s with
  | error e s' =>
    obtain ⟨hs, he, hstopped⟩ := Ends.error hx hr
    exact Ends.of_error (bind_of_error hr) ⟨hs, bind_of_error he, hstopped⟩
  | ok a' s' =>
    obtain ⟨hs, a, ha, hP⟩ := Ends.ok hx hr
    unfold Alongside Ends
    rw [bind_of_ok hr, bind_of_ok ha]
    exact (hf s' a' a hs hP).after hs

/-- Both parsers go on after the same stop. -/
theorem Alongside.rescue {why : Interrupt} {y' y : Parse α} (hx : Alongside x' x s Q)
    (hy : ∀ s', s.Before s' → (why = .syntaxProblem → s.Stopped s') → Alongside y' y s' Q) :
    Alongside (rescue why y' x') (rescue why y x) s Q := by
  cases hr : x' s with
  | ok a' s' =>
    obtain ⟨hs, a, ha, hQ⟩ := Ends.ok hx hr
    exact Ends.of_ok (rescue_of_ok hr) ⟨hs, a, rescue_of_ok ha, hQ⟩
  | error e s' =>
    obtain ⟨hs, he, hstopped⟩ := Ends.error hx hr
    by_cases hwhy : e = why
    · subst hwhy
      unfold Alongside Ends
      rw [rescue_of_stop hr, rescue_of_stop he]
      exact (hy s' hs hstopped).after hs
    · exact Ends.of_error (rescue_of_error hr hwhy) ⟨hs, rescue_of_error he hwhy, hstopped⟩

theorem Gives.alongside {g : α → α} {P : α → Prop} (hx : Gives (fun _ => True) id g x x P)
    (s : State) : Alongside x x s fun _ a' a => a' = a := by
  cases hx s s ⟨fun _ _ => trivial, (List.map_id _).symm, rfl⟩ with
  | result left _ before => exact Ends.of_ok left ⟨before, _, left, rfl⟩
  | stop left _ before _ stopped => exact Ends.of_error left ⟨before, left, stopped⟩

/-- A step that is the same in both. -/
theorem Gives.before {y : Parse α} {g : α → α} {P : α → Prop}
    (hy : Gives (fun _ => True) id g y y P)
    (hf : ∀ s' a, s.Before s' → Alongside (f' a) (f a) s' R) :
    Alongside (y >>= f') (y >>= f) s R := by
  refine (hy.alongside s).bind fun s' a' a hs ha => ?_
  subst ha
  exact hf s' a' hs

/-- A look at the token ahead leaves the state as it is. -/
theorem alongside_peek {f' f : Token → Parse β} (h : ∀ t, Alongside (f' t) (f t) s R) :
    Alongside (peek >>= f') (peek >>= f) s R := by
  have hpeek : Alongside peek peek s fun s' t' t => s' = s ∧ t' = t := by
    cases hs : s.ahead with
    | nil =>
      have h : peek s = .error .outOfTokens s := by simp [peek, hs]
      exact Ends.of_error h ⟨.refl s, h, by rintro ⟨⟩⟩
    | cons t rest =>
      have h : peek s = .ok t s := by simp [peek, hs]
      exact Ends.of_ok h ⟨.refl s, t, h, rfl, rfl⟩
  refine hpeek.bind ?_
  rintro s' t' t - ⟨rfl, rfl⟩
  exact h t'

theorem alongside_report {t : Token} {problem : Problem} {f' f : Unit → Parse β}
    (h : Alongside (f' ()) (f ()) { s with problems := s.problems.push (.ofToken t problem) } R) :
    Alongside (report t problem >>= f') (report t problem >>= f) s R := by
  have hreport : Alongside (report t problem) (report t problem) s fun s' _ _ =>
      s' = { s with problems := s.problems.push (.ofToken t problem) } :=
    ⟨s.before_push _, (), rfl, rfl⟩
  refine hreport.bind ?_
  rintro _ _ _ - rfl
  exact h

/-- A token that may be there, and what follows in either case. -/
theorem alongside_accept {kinds : List Token.Kind} {f' f : Option Token → Parse β}
    (hnone : ∀ s', s.Before s' → Alongside (f' none) (f none) s' R)
    (hsome : ∀ s' t, s.Before s' → Alongside (f' (some t)) (f (some t)) s' R) :
    Alongside (accept? kinds >>= f') (accept? kinds >>= f) s R := by
  refine (gives_accept keepsKinds_id kinds).before fun s' o hs => ?_
  cases o with
  | none => exact hnone s' hs
  | some t => exact hsome s' t hs

end Alongside

/-! ## Rules -/

/-- The rule gives expressions, whatever the tokens are. -/
abbrev GivesExpression (x : Parse Tree) : Prop :=
  GivesPart (fun _ => True) id .expression x

/-- The first rule gives the statements of the second one with numbers. -/
def Notes (x' x : Parse Tree) : Prop :=
  ∀ s, Alongside x' x s (Filled s.problems.size)

/-- The first rule gives the entries of the second one, a number for each that is left out. -/
def NotesEntry (x' x : Parse Tree) : Prop :=
  ∀ s, Alongside x' x s fun s' t' t => FilledIn s.problems.size s' [t'] [t]

/-- The first rule gives the lists of the second one with numbers. -/
def NotesList (x' x : Parse (List Tree)) : Prop :=
  ∀ s, Alongside x' x s (FilledIn s.problems.size)

section Rules

variable {x' x statement' statement expression : Parse Tree}

theorem Notes.entry (h : Notes x' x) : NotesEntry x' x :=
  fun s => (h s).imp fun _ _ _ _ hf => hf.entry

/-- The rule gives statements without entries. -/
def PlainRule (x : Parse Tree) : Prop :=
  ∀ s, Alongside x x s fun _ t' t => t' = t ∧ Plain t

theorem PlainRule.notes (h : PlainRule x) : Notes x x := by
  refine fun s => (h s).imp ?_
  rintro s' t' t - ⟨rfl, ht⟩
  exact ht.filled

theorem plainRule_throw : PlainRule (throw .tooDeep) :=
  fun s => Ends.throw ⟨.refl s, rfl, nofun⟩

theorem plain_returnStatement (keyword : Token) (h : GivesExpression expression) :
    PlainRule (returnStatement keyword expression) := by
  refine fun _ => (gives_check keepsKinds_id _).before fun _ b _ => ?_
  have hend {value : Tree} (s : State) : Alongside
      (do semicolon .returnEnd; return .returnStmt (.token keyword) value)
      (do semicolon .returnEnd; return .returnStmt (.token keyword) value) s
      fun _ t' t => t' = t ∧ Plain t :=
    (gives_semicolon keepsKinds_id _).before fun _ _ _ => alongside_pure ⟨rfl, rfl, rfl, rfl, rfl⟩
  cases b with
  | true => exact hend _
  | false => exact h.before fun s' _ _ => hend s'

theorem plain_varDeclaration (h : GivesExpression expression) :
    PlainRule (varDeclaration expression) := by
  refine fun _ => (gives_expect keepsKinds_id _ _).before fun _ name _ => ?_
  have hend {value : Tree} (s : State) : Alongside
      (do semicolon .variableEnd; return .varDecl (.token name) value)
      (do semicolon .variableEnd; return .varDecl (.token name) value) s
      fun _ t' t => t' = t ∧ Plain t :=
    (gives_semicolon keepsKinds_id _).before fun _ _ _ => alongside_pure ⟨rfl, rfl, rfl, rfl, rfl⟩
  exact alongside_accept (fun s' _ => hend s') fun _ _ _ => h.before fun s' _ _ => hend s'

/-- An `if` statement has the numbers of its branches. -/
theorem notes_ifStatement (he : GivesExpression expression) (h : Notes statement' statement) :
    Notes (ifStatement expression statement') (ifStatement expression statement) := by
  refine fun s => (gives_expect keepsKinds_id _ _).before fun s₁ _ h₁ => he.before fun s₂ c h₂ => ?_
  refine (gives_expect keepsKinds_id _ _).before fun s₃ _ h₃ => ?_
  have hlo : s.problems.size ≤ s₃.problems.size := ((h₁.trans h₂).trans h₃).size_le
  refine (h s₃).bind fun s₄ t' t h₄ ht => ?_
  refine alongside_accept (fun s₅ h₅ => ?_) fun s₅ _ h₅ => ?_
  · exact alongside_pure ((ht.widen hlo h₅).ifOnly c)
  · refine (h s₅).bind fun s₆ e' e h₆ hf => alongside_pure ?_
    have hlow : s.problems.size ≤ s₅.problems.size := Nat.le_trans hlo (h₄.trans h₅).size_le
    exact (ht.widen hlo h₅).ifElse c hlow h₆ hf

theorem notes_whileStatement (he : GivesExpression expression) (h : Notes statement' statement) :
    Notes (whileStatement expression statement') (whileStatement expression statement) := by
  refine fun s => (gives_expect keepsKinds_id _ _).before fun s₁ _ h₁ => he.before fun s₂ c h₂ => ?_
  refine (gives_expect keepsKinds_id _ _).before fun s₃ _ h₃ => (h s₃).bind fun s₄ t' t _ ht => ?_
  exact alongside_pure ((ht.widen ((h₁.trans h₂).trans h₃).size_le (.refl s₄)).whileLoop c)

/-- The start of a `for` loop is read alike, and it is plain. -/
theorem alongside_forInitializer {varDeclaration exprStatement : Parse Tree}
    (hv : PlainRule varDeclaration) (he : PlainRule exprStatement) (s : State) :
    Alongside (forInitializer varDeclaration exprStatement)
      (forInitializer varDeclaration exprStatement) s
      fun _ o' o => o' = o ∧ ∀ t, o = some t → Plain t := by
  have hsome {x : Parse Tree} (hx : PlainRule x) (s : State) :
      Alongside (some <$> x) (some <$> x) s fun _ o' o => o' = o ∧ ∀ t, o = some t → Plain t := by
    rw [map_eq_pure_bind]
    refine (hx s).bind fun s' t' t _ ht => alongside_pure ⟨by rw [ht.1], ?_⟩
    rintro _ ⟨⟩
    exact ht.2
  refine alongside_accept (fun s' _ => hsome he s') fun s' t _ => ?_
  dsimp only
  split
  · exact alongside_pure ⟨rfl, nofun⟩
  · exact hsome hv s'

/-- A `for` loop has the numbers of its body. -/
theorem notes_forStatement {varDeclaration exprStatement : Parse Tree}
    (hv : PlainRule varDeclaration) (hx : PlainRule exprStatement) (he : GivesExpression expression)
    (h : Notes statement' statement) :
    Notes (forStatement varDeclaration exprStatement expression statement')
      (forStatement varDeclaration exprStatement expression statement) := by
  refine fun s => (gives_expect keepsKinds_id _ _).before fun s₁ _ h₁ => ?_
  refine (alongside_forInitializer hv hx s₁).bind fun s₂ o' o h₂ ho => ?_
  obtain ⟨rfl, hplain⟩ := ho
  refine (gives_optionalBefore keepsKinds_id _ he).before fun s₃ c h₃ => ?_
  refine (gives_semicolon keepsKinds_id _).before fun s₄ _ h₄ => ?_
  refine (gives_optionalBefore keepsKinds_id _ he).before fun s₅ step h₅ => ?_
  refine (gives_expect keepsKinds_id _ _).before fun s₆ _ h₆ => ?_
  have hs : s.Before s₆ := ((((h₁.trans h₂).trans h₃).trans h₄).trans h₅).trans h₆
  refine (h s₆).bind fun s₇ t' t h₇ ht => alongside_pure ?_
  exact (ht.widen hs.size_le (.refl s₇)).lowerFor c step hplain (hs.trans h₇).size_le

/-- The lists go on from what is done, which is held last one first. -/
theorem alongside_itemsUntil (ends : List Token.Kind) (h : NotesEntry x' x) {lo : Nat} :
    ∀ (fuel : Nat) {s : State} {done' done : List Tree}, lo ≤ s.problems.size →
      FilledIn lo s done'.reverse done.reverse →
      Alongside (itemsUntil ends x' fuel done') (itemsUntil ends x fuel done) s (FilledIn lo)
  | 0, _, _, _, _, hd => alongside_pure hd
  | fuel + 1, s, done', done, hlo, hd => by
    refine gives_peek.before fun s₁ a h₁ => ?_
    have hd₁ := hd.widen (Nat.le_refl lo) h₁
    split
    · exact alongside_pure hd₁
    · refine (h s₁).bind fun s₂ t' t h₂ ht => ?_
      have hlow : lo ≤ s₁.problems.size := Nat.le_trans hlo h₁.size_le
      refine alongside_itemsUntil ends h fuel (Nat.le_trans hlow h₂.size_le) ?_
      rw [List.reverse_cons, List.reverse_cons]
      exact hd₁.append hlow h₂ ht

theorem notes_itemsFrom (h : NotesEntry x' x) (fuel : Nat) :
    NotesList (itemsFrom x' fuel []) (itemsFrom x fuel []) :=
  fun _ => alongside_itemsUntil _ h fuel (Nat.le_refl _) .nil

theorem notes_blockItems (h : NotesEntry x' x) (fuel : Nat) :
    NotesList (blockItems fuel x') (blockItems fuel x) := by
  refine fun s => (notes_itemsFrom h fuel s).bind fun s₁ ts' ts _ hts => ?_
  refine (gives_expect keepsKinds_id _ _).before fun s₂ _ h₂ => alongside_pure ?_
  exact hts.widen (Nat.le_refl _) h₂

/-- A function has the numbers of its body. -/
theorem notes_routine (fuel : Nat) {block' block : Parse (List Tree)} (h : NotesList block' block)
    (kind : Routine) : Notes (routine fuel block' kind) (routine fuel block kind) := by
  refine fun s => (gives_expect keepsKinds_id _ _).before fun s₁ name h₁ => ?_
  refine (gives_expect keepsKinds_id _ _).before fun s₂ _ h₂ => ?_
  refine (gives_listed keepsKinds_id (gives_parameter keepsKinds_id) fuel _).before
    fun s₃ params h₃ => ?_
  refine (gives_expect keepsKinds_id _ _).before fun s₄ _ h₄ => ?_
  refine (gives_expect keepsKinds_id _ _).before fun s₅ _ h₅ => ?_
  have hs : s.Before s₅ := (((h₁.trans h₂).trans h₃).trans h₄).trans h₅
  refine (h s₅).bind fun s₆ ts' ts _ hts => alongside_pure ?_
  exact .funDecl _ _ (hts.widen hs.size_le (.refl s₆))

theorem notes_classDeclaration (fuel : Nat) {method' method : Parse Tree}
    (h : Notes method' method) :
    Notes (classDeclaration fuel method') (classDeclaration fuel method) := by
  refine fun s => (gives_expect keepsKinds_id _ _).before fun s₁ name h₁ => ?_
  refine (gives_superclass keepsKinds_id).before fun s₂ parent h₂ => ?_
  refine (gives_expect keepsKinds_id _ _).before fun s₃ _ h₃ => ?_
  refine (notes_itemsFrom h.entry fuel s₃).bind fun s₄ ts' ts _ hts => ?_
  refine (gives_expect keepsKinds_id _ _).before fun s₅ _ h₅ => alongside_pure ?_
  exact .classDecl _ _ (hts.widen ((h₁.trans h₂).trans h₃).size_le h₅)

/-- The number of the message stands where the declaration is left out. -/
theorem NotesEntry.recover (h : NotesEntry x' x) :
    NotesEntry (Noting.recover x') (recover x) := by
  refine fun s => (h s).rescue fun s' hs hstopped => ?_
  obtain ⟨hlo, d, hd, hstops⟩ := (hstopped rfl).getElem?
  have hrest : Alongside (do synchronize; return note (s'.problems.size - 1) : Parse Tree)
      (do synchronize; return .null) s' fun s'' t' t => FilledIn s.problems.size s'' [t'] [t] :=
    (gives_synchronize keepsKinds_id).before fun s'' _ hs'' =>
      alongside_pure (filledIn_note hlo (hs''.getElem? hd) hstops)
  exact hrest

/-- An entry that is too deep is left out, with a number. -/
theorem NotesEntry.recoverDepth (h : NotesEntry x' x) :
    NotesEntry (Noting.recoverDepth x') (recoverDepth x) := by
  refine fun s => (h s).rescue fun s' hs _ => ?_
  have hrest : Alongside
      (do
        let t ← peek
        report t .tooDeep
        synchronize
        return note s'.problems.size : Parse Tree)
      giveUp s' fun s'' t' t => FilledIn s.problems.size s'' [t'] [t] := by
    -- The message gets the number of those before it.
    refine alongside_peek fun a => alongside_report ?_
    refine (gives_synchronize keepsKinds_id).before fun s'' _ hs'' => alongside_pure ?_
    exact filledIn_note hs.size_le (hs''.getElem? Array.getElem?_push_size) ⟨a, _, rfl, .inr rfl⟩
  exact hrest

/-! The rules that call each other, each with less room than the rule that calls it. -/

theorem plain_valueRule {form : Tree → Tree} (hform : ∀ e, Plain (form e)) (fuel room : Nat) :
    PlainRule (valueRule form fuel room) := by
  cases room with
  | zero => exact plainRule_throw
  | succ room =>
    have h : GivesExpression _ := gives_expression keepsKinds_id fuel room
    exact fun _ => h.before fun _ e _ => (gives_semicolon keepsKinds_id _).before fun _ _ _ =>
      alongside_pure ⟨rfl, hform e⟩

theorem plain_exprRule (fuel room : Nat) : PlainRule (valueRule .exprStmt fuel room) :=
  plain_valueRule (fun _ => ⟨rfl, rfl, rfl, rfl⟩) fuel room

theorem plain_returnRule (fuel : Nat) (keyword : Token) (room : Nat) :
    PlainRule (returnRule fuel keyword room) := by
  cases room with
  | zero => exact plainRule_throw
  | succ room => exact plain_returnStatement keyword (gives_expression keepsKinds_id fuel room)

theorem plain_varRule (fuel room : Nat) : PlainRule (varRule fuel room) := by
  cases room with
  | zero => exact plainRule_throw
  | succ room => exact plain_varDeclaration (gives_expression keepsKinds_id fuel room)

theorem notesList_throw : NotesList (throw .tooDeep) (throw .tooDeep) :=
  fun s => Ends.throw ⟨.refl s, rfl, nofun⟩

/-- All rules of statements note what they leave out, by induction on the room. -/
theorem notes_rules (fuel room : Nat) :
    Notes (@forRule _ _ _ Noting.recovery fuel room) (forRule fuel room) ∧
    Notes (@ifRule _ _ _ Noting.recovery fuel room) (ifRule fuel room) ∧
    Notes (@whileRule _ _ _ Noting.recovery fuel room) (whileRule fuel room) ∧
    NotesList (@blockRule _ _ _ Noting.recovery fuel room) (blockRule fuel room) ∧
    Notes (@Parser.statement _ _ _ Noting.recovery fuel room) (Parser.statement fuel room) ∧
    (∀ kind, Notes (@routineRule _ _ _ Noting.recovery fuel kind room) (routineRule fuel kind room)) ∧
    Notes (@classRule _ _ _ Noting.recovery fuel room) (classRule fuel room) ∧
    NotesEntry (@declaration _ _ _ Noting.recovery fuel room) (declaration fuel room) := by
  induction room with
  | zero =>
    unfold forRule ifRule whileRule blockRule Parser.statement routineRule classRule declaration
    have hthrow := plainRule_throw.notes
    exact ⟨hthrow, hthrow, hthrow, notesList_throw, hthrow, fun _ => hthrow, hthrow, hthrow.entry⟩
  | succ room ih =>
    obtain ⟨hfor, hif, hwhile, hblock, hstatement, hroutine, hclass, hdeclaration⟩ := ih
    have hexpression : GivesExpression _ := gives_expression keepsKinds_id fuel room
    refine ⟨?_, ?_, ?_, ?_, ?_, fun kind => ?_, ?_, ?_⟩
    · unfold forRule
      exact notes_forStatement (plain_varRule fuel room) (plain_exprRule fuel room) hexpression
        hstatement
    · unfold ifRule
      exact notes_ifStatement hexpression hstatement
    · unfold whileRule
      exact notes_whileStatement hexpression hstatement
    · unfold blockRule
      exact notes_blockItems hdeclaration fuel
    · unfold Parser.statement
      refine fun s => alongside_accept (fun s' hs => ?_) fun s' t hs => ?_
      · exact ((plain_exprRule fuel room).notes s').imp fun s'' _ _ _ h =>
          h.widen hs.size_le (.refl s'')
      · dsimp only
        have hwiden {y' y : Parse Tree} (h : Notes y' y) :
            Alongside y' y s' (Filled s.problems.size) :=
          (h s').imp fun s'' _ _ _ h => h.widen hs.size_le (.refl s'')
        have hlist : Alongside
            (do return .block (.list (← @blockRule _ _ _ Noting.recovery fuel room)))
            (do return .block (.list (← blockRule fuel room))) s' (Filled s.problems.size) :=
          (hblock s').bind fun s'' ts' ts _ hts => alongside_pure
            (.block (hts.widen hs.size_le (.refl s'')))
        cases hk : t.kind with
        | kwFor => exact hwiden hfor
        | kwIf => exact hwiden hif
        | kwPrint =>
          exact hwiden (plain_valueRule (fun _ => ⟨rfl, rfl, rfl, rfl⟩) fuel room).notes
        | kwReturn => exact hwiden (plain_returnRule fuel t room).notes
        | kwWhile => exact hwiden hwhile
        | _ => exact hlist
    · unfold routineRule
      exact notes_routine fuel hblock kind
    · unfold classRule
      exact notes_classDeclaration fuel (hroutine .method)
    · unfold declaration
      refine NotesEntry.recover fun s => ?_
      have hwiden {y' y : Parse Tree} {s' : State} (hs : s.Before s') (h : Notes y' y) :
          Alongside y' y s' fun s'' t' t => FilledIn s.problems.size s'' [t'] [t] :=
        (h.entry s').imp fun s'' _ _ _ h => h.widen hs.size_le (.refl s'')
      refine alongside_accept (fun s' hs => hwiden hs hstatement) fun s' t hs => ?_
      dsimp only
      cases hk : t.kind with
      | kwClass => exact hwiden hs hclass
      | kwFun => exact hwiden hs (hroutine .function)
      | _ => exact hwiden hs (plain_varRule fuel room).notes

end Rules

/-- With the numbers and without, a program is read alike. -/
theorem filledIn_program {room : Nat} {tokens : List Token} {trees : List Tree} {s : State}
    (h : program room tokens = .ok trees s) :
    ∃ noted, Noting.program room tokens = .ok noted s ∧ FilledIn 0 s noted trees := by
  have hitem := (notes_rules (tokens.length + 1) room).2.2.2.2.2.2.2.recoverDepth
  have hrun := @alongside_itemsUntil _ _ [.eof] hitem 0 (tokens.length + 1) { ahead := tokens } [] []
    (Nat.zero_le _) .nil
  cases hr : Noting.program room tokens with
  | ok noted s' =>
    obtain ⟨-, trees', htrees, hf⟩ := Ends.ok hrun hr
    cases htrees.symm.trans h
    exact ⟨noted, rfl, hf⟩
  | error e s' => cases (Ends.error hrun hr).2.1.symm.trans h

end Parser

/-! ## Complete programs -/

open LoxLang.Tree (omissions entriesIn unnotedIn notes)

namespace Parser

/-- Nothing is left out of the statement. -/
def IsComplete (t : Tree) : Prop :=
  ∀ u ∈ t.entries, u.isNull = false

theorem isComplete_of_mem {t : Tree} {ts : List Tree} (ht : t ∈ ts)
    (h : ∀ u ∈ entriesIn ts, u.isNull = false) : t.isNull = false ∧ IsComplete t := by
  induction ts with
  | nil => cases ht
  | cons u us ih =>
    simp only [entriesIn, List.forall_mem_cons, List.forall_mem_append] at h
    rcases List.mem_cons.1 ht with rfl | ht
    · exact ⟨h.1, h.2.1⟩
    · exact ih ht h.2.2

/-- A part of a program is of the right form, if nothing is left out of it. -/
def Part.Forms : Part → Tree → Prop
  | .expression, t => WellFormed .expression t
  | .statement, t | .declaration, t => t.isNull = false → IsComplete t → WellFormed .statement t
  | .method, t => IsComplete t → WellFormed .method t ∧ WellFormed .statement t

theorem exists_level {kind : Token.Kind} (h : kind ∈ binaryKinds) :
    ∃ level : Grammar.Level, kind ∈ level.kinds ∧ level.tree = .binary := by
  have hall : ∀ kind ∈ binaryKinds, [Grammar.Level.equality, .comparison, .term, .factor].any
      (fun level => kind ∈ level.kinds) := by decide
  obtain ⟨level, hlevel, hkind⟩ := List.any_eq_true.1 (hall kind h)
  refine ⟨level, by simpa using hkind, ?_⟩
  simp only [List.mem_cons, List.not_mem_nil, or_false] at hlevel
  rcases hlevel with rfl | rfl | rfl | rfl <;> rfl

theorem wellFormed_body {items : List Tree} (h : ∀ t ∈ items, WellFormed .statement t) :
    WellFormed .body (.list items) :=
  fun _ => .body .body fun _ t ht => h t (List.mem_of_getElem? ht) _

/-- Shaped trees of genuine tokens have the right form. -/
theorem forms_of_shaped {K : Token → Prop} (hK : ∀ a, K a → a.kind ≠ .eof → a.Genuine)
    {part : Part} {t : Tree} (h : Shaped K part t) : part.Forms t := by
  have name {u : Tree} (h : Holds K [.identifier] u) : u.IsName := by
    obtain ⟨a, rfl, ha, hkind⟩ := h
    have hkind := List.mem_singleton.1 hkind
    exact (hK a ha (by simp [hkind])).isName hkind
  have absent {P : Prop} (hn : Tree.null.isNull = false) : P := by cases hn
  have body {items : List Tree} (ih : ∀ t ∈ items, Part.Forms .declaration t)
      (hc : ∀ u ∈ entriesIn items, u.isNull = false) : WellFormed .body (.list items) :=
    wellFormed_body fun t ht => ih t ht (isComplete_of_mem ht hc).1 (isComplete_of_mem ht hc).2
  have members {methods : List Tree} (ih : ∀ t ∈ methods, Part.Forms .method t)
      (hc : ∀ u ∈ entriesIn methods, u.isNull = false) : WellFormed .members (.list methods) :=
    fun _ => .list .members (fun _ => rfl) fun t ht => (ih t ht (isComplete_of_mem ht hc).2).1 _
  induction h with
  | @literal a known hkind =>
    have hvalue : ∃ value, literalValue a = .scalar value := by
      obtain ⟨value, hv⟩ := (hK a known fun he => by simp [he, literalKinds] at hkind).literal
      unfold literalValue
      split
      · exact ⟨_, rfl⟩
      · exact ⟨_, rfl⟩
      · exact ⟨_, rfl⟩
      · exact ⟨value, by rw [hv]; rfl⟩
    obtain ⟨value, hv⟩ := hvalue
    rw [hv]
    exact fun _ => .leaf .literal rfl
  | always => exact fun _ => .leaf .literal rfl
  | grouping _ ih => exact fun S => .one .grouping rfl (ih S)
  | unary hop _ ih =>
    obtain ⟨a, rfl, -, hkind⟩ := hop
    exact fun S => .one (.unary (by simpa using hkind)) rfl (ih S)
  | binary _ hop _ ihl ihr =>
    obtain ⟨a, rfl, -, hkind⟩ := hop
    obtain ⟨level, hlevel, htree⟩ := exists_level hkind
    exact fun S => .two (.binary hlevel htree) rfl (ihl S) (ihr S)
  | logical _ hop _ ihl ihr =>
    obtain ⟨a, rfl, -, -⟩ := hop
    exact fun S => .two .logical rfl (ihl S) (ihr S)
  | ident hname => exact fun _ => .leaf (.ident (name hname)) rfl
  | assign hname _ ih => exact fun S => .one (.assign (name hname)) rfl (ih S)
  | call _ hparen _ ih ihs =>
    obtain ⟨a, rfl, -, -⟩ := hparen
    exact fun S => .two .call rfl (ih S) (.list .arguments (fun _ => rfl) fun t ht => ihs t ht S)
  | getField _ hname ih => exact fun S => .one (.getField (name hname)) rfl (ih S)
  | setField _ hname _ ih ihv => exact fun S => .two (.setField (name hname)) rfl (ih S) (ihv S)
  | thisRef hword =>
    obtain ⟨a, rfl, ha, hkind⟩ := hword
    have hkind := List.mem_singleton.1 hkind
    exact fun _ => .leaf (.thisRef ((hK a ha (by simp [hkind])).isThis hkind)) rfl
  | superRef hword hname =>
    obtain ⟨a, rfl, ha, hkind⟩ := hword
    have hkind := List.mem_singleton.1 hkind
    exact fun _ => .leaf (.superRef ((hK a ha (by simp [hkind])).isSuper hkind) (name hname)) rfl
  | exprStmt _ ih => exact fun _ _ S => .one .exprStmt rfl (ih S)
  | printStmt _ ih => exact fun _ _ S => .one .printStmt rfl (ih S)
  | block _ ih => exact fun _ hc S => .one .block rfl (body ih hc _)
  | ifOnly _ ht ih iht =>
    intro _ hc S
    refine .ifElse (.ifElse ht.declared?_statement rfl) (ih S) ?_ absent
    exact iht ht.isNull_statement (fun u hu => hc u (List.mem_append_left _ hu)) S
  | ifElse _ ht he ih iht ihe =>
    intro _ hc S
    refine .ifElse (.ifElse ht.declared?_statement he.declared?_statement) (ih S) ?_ fun hn => ?_
    · exact iht ht.isNull_statement (fun u hu => hc u (List.mem_append_left _ hu)) S
    · exact ihe hn (fun u hu => hc u (List.mem_append_right _ hu)) S
  | whileLoop _ ht ih iht =>
    exact fun _ hc S => .two (.whileLoop ht.declared?_statement) rfl (ih S)
      (iht ht.isNull_statement hc S)
  | emptyReturn hword =>
    obtain ⟨a, rfl, -, -⟩ := hword
    exact fun _ _ S => .returnStmt .returnStmt absent
  | returnStmt hword _ ih =>
    obtain ⟨a, rfl, -, -⟩ := hword
    exact fun _ _ S => .returnStmt .returnStmt fun _ => ih S
  | null => exact absent
  | statement _ ih => exact ih
  | emptyVar hname => exact fun _ _ S => .varDecl (.varDecl (name hname)) absent
  | varDecl hname _ ih => exact fun _ _ S => .varDecl (.varDecl (name hname)) fun _ => ih _
  | method hname hparams _ ih =>
    refine fun hc => ⟨fun S => ?_, fun S => ?_⟩
    · exact .one (.method (name hname) fun p hp => name (hparams p hp)) rfl (body ih hc _)
    · exact .one (.funDecl (name hname) fun p hp => name (hparams p hp)) rfl (body ih hc _)
  | funDecl _ ih => exact fun _ hc => (ih hc).2
  | rootClass hname _ ih =>
    exact fun _ hc S => .classDecl (.rootClass (name hname)) absent (members ih hc _)
  | subclass hname hparent _ ih =>
    exact fun _ hc S => .classDecl (.subclass (name hname) (name hparent))
      (fun _ => .leaf (.ident (name hparent)) rfl) (members ih hc _)

/-- What is parsed without a message has nothing left out. -/
theorem isComplete_of_parse {tokens : List Token} {statements : List Tree}
    (h : parse? tokens = some ⟨statements, []⟩) : ∀ u ∈ entriesIn statements, u.isNull = false := by
  obtain ⟨s, hprogram, hproblems⟩ := parse_eq_some_iff.1 h
  obtain ⟨noted, -, hfilled⟩ := filledIn_program hprogram
  have hnone : notes noted = [] := by
    refine List.eq_nil_iff_forall_not_mem.2 fun k hk => ?_
    obtain ⟨-, d, hd, -⟩ := hfilled.numbers.2 k hk
    rw [← Array.getElem?_toList, hproblems] at hd
    cases hd
  have hzero := hfilled.count
  rw [hnone] at hzero
  simpa using List.countP_eq_zero.1 hzero

/-- What is parsed from genuine tokens without a message is of the right form. -/
theorem wellFormed_of_shaped {tokens : List Token} {statements : List Tree}
    (hK : ∀ a ∈ tokens, a.kind ≠ .eof → a.Genuine) (h : parse? tokens = some ⟨statements, []⟩) :
    ∀ t ∈ statements, WellFormed .statement t := by
  intro t ht
  obtain ⟨hnull, hcomplete⟩ := isComplete_of_mem ht (isComplete_of_parse h)
  exact forms_of_shaped hK (shaped_parse h t ht) hnull hcomplete

/-! ## Programs -/

/-- What the messages of a parse say about what is left out. With the number of a message in the
place of each null entry, the statements are `noted`. -/
structure Accounted (noted trees : List Tree) (problems : List Diagnostic) : Prop where
  unnoted : trees = unnotedIn noted
  /-- Each null entry has a number of its own. -/
  own : (notes noted).Pairwise (· < ·) ∧ (notes noted).length = omissions trees
  /-- It is that of a message that a declaration is left out for. -/
  stops : ∀ k ∈ notes noted, ∃ d, problems[k]? = some d ∧ d.Stops
  le : omissions trees ≤ problems.length
  complete : problems = [] → ∀ t ∈ entriesIn trees, t.isNull = false
  told : problems ≠ [] → ∀ r : Reporter, (r.reportAll problems).hadError = true

/-- Increasing numbers below a bound are no more than the bound. -/
theorem length_le_of_pairwise_lt {n : Nat} {ks : List Nat} (h : ks.Pairwise (· < ·))
    (hn : ∀ k ∈ ks, k < n) : ks.length ≤ n := by
  have hsub : ks ⊆ List.range n := fun k hk => List.mem_range.2 (hn k hk)
  have hnodup : ks.Nodup := h.imp Nat.ne_of_lt
  simpa using (List.Nodup.subperm hnodup hsub).length_le

/-- With static problems only, all that is left out is accounted for. -/
theorem FilledIn.accounted {noted trees : List Tree} {s : State} (h : FilledIn 0 s noted trees)
    (hstatic : ∀ d ∈ s.problems, d.isStatic = true) : Accounted noted trees s.problems.toList := by
  have hle : omissions trees ≤ s.problems.toList.length := by
    rw [h.count]
    refine length_le_of_pairwise_lt h.numbers.1 fun k hk => ?_
    obtain ⟨-, d, hd, -⟩ := h.numbers.2 k hk
    exact (Array.getElem?_eq_some_iff.1 hd).1
  refine ⟨h.trees, ⟨h.numbers.1, h.count.symm⟩, fun k hk => ?_, hle, fun hnil t ht => ?_,
    fun hne r => ?_⟩
  · obtain ⟨-, d, hd, hstops⟩ := h.numbers.2 k hk
    exact ⟨d, by rw [Array.getElem?_toList, hd], hstops⟩
  · rw [hnil] at hle
    have hzero : omissions trees = 0 := Nat.le_zero.1 hle
    simpa using List.countP_eq_zero.1 hzero t ht
  · obtain ⟨d, hd⟩ := List.exists_mem_of_ne_nil _ hne
    have hany : s.problems.toList.any Diagnostic.isStatic = true :=
      List.any_eq_true.2 ⟨d, hd, hstatic d (Array.mem_toList_iff.1 hd)⟩
    simp only [Reporter.reportAll_eq, hany, Bool.or_true]

/-- What is left out of a program is accounted for, with any room. -/
theorem exists_accounted {tokens : List Token} {e : Token} (he : e ∈ tokens)
    (hkind : e.kind = .eof) (room : Nat) :
    ∃ trees noted s, program room tokens = .ok trees s ∧ Noting.program room tokens = .ok noted s ∧
      Accounted noted trees s.problems.toList := by
  obtain ⟨body, e', rest, rfl, he', inside⟩ := exists_first_eof he hkind
  obtain ⟨trees, problems, hlist, -, hat⟩ := program_eq inside he'
    (.inl rfl : Fork.Roomy 18 _ room room) (Nat.lt_succ_self _) rest rest
  obtain ⟨noted, hnoted, hfilled⟩ := filledIn_program hlist
  refine ⟨trees, noted, _, hlist, hnoted, hfilled.accounted fun d hd => ?_⟩
  obtain ⟨t, -, problem, rfl, -⟩ := hat d hd
  rfl

end Parser

open LoxLang.Parser

/-- No statement disappears without a report. The parser that leaves the number of a message in the
place of each statement that is left out comes to the same messages, and without the numbers it
gives the same statements. No two entries have the same number, at whatever depths they are. So
there are at most as many null entries as messages, none at all if there are no messages, and if
there are any the reporter has its flag set. The limit on the depth plays no part. -/
theorem parse_omissions_reported {tokens : List Token} {e : Token} (he : e ∈ tokens)
    (hkind : e.kind = .eof) :
    (∃ parsed noted s, parse? tokens = some parsed ∧
      Noting.program Tree.maxDepth tokens = .ok noted s ∧ s.problems.toList = parsed.problems ∧
      Accounted noted parsed.statements parsed.problems) ∧
    ∀ room, ∃ trees noted s, program room tokens = .ok trees s ∧
      Noting.program room tokens = .ok noted s ∧ Accounted noted trees s.problems.toList := by
  refine ⟨?_, exists_accounted he hkind⟩
  obtain ⟨trees, noted, s, htrees, hnoted, h⟩ := exists_accounted he hkind Tree.maxDepth
  exact ⟨⟨trees, s.problems.toList⟩, noted, s, parse_eq_some_iff.2 ⟨s, htrees, rfl⟩, hnoted, rfl, h⟩

/-- A block with a wrong statement, and with another one in the function after it. -/
theorem parse_omissions_reported_nested :
    let tokens : List Token := [Token.Kind.leftBrace, .plus, .semicolon, .kwFun, .identifier,
      .leftParen, .rightParen, .leftBrace, .plus, .semicolon, .rightBrace, .rightBrace, .eof].map
        fun kind => .ofText kind "x" .nil 1
    ∃ parsed noted, parse? tokens = some parsed ∧ omissions parsed.statements = 2 ∧
      notes noted = [0, 1] ∧ Accounted noted parsed.statements parsed.problems := by
  intro tokens
  obtain ⟨parsed, noted, s, hparsed, hnoted, -, h⟩ :=
    (@parse_omissions_reported tokens (.ofText .eof "x" .nil 1) (by simp [tokens]) rfl).1
  refine ⟨parsed, noted, hparsed, ?_, ?_, h⟩
  · cases hparsed
    rfl
  · cases hnoted
    rfl

end LoxLang
