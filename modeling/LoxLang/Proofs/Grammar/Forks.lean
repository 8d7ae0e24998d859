import LoxLang.Proofs.Grammar.Cursor
import LoxLang.Proofs.Grammar.Reading

/-!
# Two parsers at a fork

A fork is a list of tokens with two ways to go on after it. The first way is the end of the program,
or there is nothing any more, and the second way is anything that no `else` starts. One parser reads
the first way from the tokens that are ahead, and the other one reads the second way by positions.
Until the fork they see the same tokens and do the same. Behind the fork they still do the same if
the two ways start with the same token, since no parser goes past the end of the program. If not,
the first parser stays at the end of the program, and if it was inside of a statement it has to
report a problem there (`Fork.Abreast`).
-/

namespace LoxLang.Parser

open Cursor (Read Halt)

variable {α β : Type}

/-- Tokens inside of a program, and two ways to go on after them. -/
structure Fork where
  body : List Token
  first : List Token
  second : List Token
  inside : ∀ t ∈ body, t.kind ≠ .eof
  ends : ∀ t ∈ first.head?, t.kind = .eof
  goesOn : first ≠ [] → ∃ t ∈ second.head?, t.kind ∉ [Token.Kind.kwElse]

/-- The way in which a rule reads. -/
structure Manner where
  /-- The rule takes a token if it gives a result. -/
  takes : Prop
  /-- At a fork in the middle of the rule there is a report. -/
  seals : Prop
  /-- At the end of the program there is a report. -/
  fails : Prop
  /-- The rule may be nested too deeply. -/
  deep : Prop

namespace Manner

/-- Something that more of it may follow, and that is missing at the end of the program. -/
abbrev unclosed (deep : Prop) : Manner := ⟨True, False, True, deep⟩

/-- Something that nothing can be added to. -/
abbrev closed (deep : Prop) : Manner := ⟨True, True, True, deep⟩

/-- Something that may not be there at all. -/
abbrev optional (deep : Prop) : Manner := ⟨False, False, False, deep⟩

/-- One rule after the other. -/
@[simp]
def andThen (M N : Manner) : Manner where
  takes := M.takes ∨ N.takes
  seals := (M.seals ∨ N.fails) ∧ N.seals
  fails := M.fails ∨ N.fails
  deep := M.deep ∨ N.deep

/-- A rule that reads in the first manner reads in the second one. -/
structure Suits (M N : Manner) : Prop where
  takes : N.takes → M.takes
  seals : N.seals → M.seals
  fails : N.fails → M.fails
  deep : M.deep → N.deep

@[simp]
theorem suits_iff {M N : Manner} : M.Suits N ↔ (N.takes → M.takes) ∧ (N.seals → M.seals) ∧
    (N.fails → M.fails) ∧ (M.deep → N.deep) :=
  ⟨fun h => ⟨h.takes, h.seals, h.fails, h.deep⟩, fun h => ⟨h.1, h.2.1, h.2.2.1, h.2.2.2⟩⟩

end Manner

variable {a' : List Token} {s' : State} {c' : Cursor.State} {x' x : Parse α} {seals fails : Prop}
  {y : Read α}

namespace Fork

variable {F : Fork}

/-- Both parsers have the tokens `a` ahead before the fork, and have reported the same. -/
structure Beside (F : Fork) (a : List Token) (s : State) (c : Cursor.State) : Prop where
  ahead : s.ahead = a ++ F.first
  tokens : c.tokens = F.body ++ F.second
  suffix : a <:+ F.body
  position : c.position + a.length = F.body.length
  furthest : c.furthest = c.position
  problems : c.problems = s.problems

/-- From `a` and `s` on, both parsers have come to `a'`. All that they have reported since is at
tokens that the first one has seen, and is about depth only if something was nested too deeply. -/
structure Onward (F : Fork) (deep : Prop) (a a' : List Token) (s s' : State)
    (c' : Cursor.State) : Prop where
  beside : F.Beside a' s' c'
  suffix : a' <:+ a
  grows : s.problems.size ≤ s'.problems.size
  problems : ∀ d ∈ s'.problems, d ∈ s.problems ∨ ∃ t ∈ F.body ++ F.first, ∃ problem,
    d = .ofToken t problem ∧ (problem = .tooDeep → deep)

/-- The rule ends behind the fork on the first way. If it must, it has reported something or
stopped. -/
def Lapses (F : Fork) (must : Prop) (x : Parse α) (s : State) : Prop :=
  Ends x s
    (fun _ s' => s'.ahead = F.first ∧ s.problems.size ≤ s'.problems.size ∧
      (must → s.problems.size < s'.problems.size))
    fun e s' => s'.ahead = F.first ∧ s.problems.size ≤ s'.problems.size ∧
      (e = .syntaxProblem → s.problems.size < s'.problems.size)

/-- With `a` ahead before the fork, the two rules give the same result, or stop for the same reason,
or part at the fork. -/
def Meets (F : Fork) (M : Manner) (a : List Token) (x : Parse α) (y : Read α) (s : State)
    (c : Cursor.State) : Prop :=
  (∃ v a' s' c', x s = .ok v s' ∧ y c = .ok v c' ∧ F.Onward M.deep a a' s s' c' ∧
    (M.takes → a'.length < a.length)) ∨
  (∃ e a' s' c', x s = .error e s' ∧ y c = .error (.stopped e) c' ∧
    F.Onward M.deep a a' s s' c' ∧ (e = .tooDeep → M.deep) ∧
    (e = .outOfTokens → F.first = []) ∧
    (e = .syntaxProblem → s.problems.size < s'.problems.size)) ∨
  (F.first.head? ≠ F.second.head? ∧ F.Lapses M.seals x s)

/-- The two rules read side by side if at most `n` tokens are ahead before the fork, and the first
one stays where it is at the end of the program. -/
structure Abreast (F : Fork) (n : Nat) (M : Manner) (x : Parse α) (y : Read α) : Prop where
  meets : ∀ {a s c}, a.length ≤ n → F.Beside a s c → F.Meets M a x y s c
  lapses : ∀ s, s.ahead = F.first → F.Lapses M.fails x s

/-- The two rules read side by side if they start before the fork. -/
structure AbreastInside (F : Fork) (n : Nat) (M : Manner) (x : Parse α) (y : Read α) : Prop where
  meets : ∀ {a s c}, a ≠ [] → a.length ≤ n → F.Beside a s c → F.Meets M a x y s c
  lapses : ∀ s, s.ahead = F.first → F.Lapses M.fails x s

/-! ## Positions -/

section Positions

variable {a : List Token} {s : State} {c : Cursor.State} {deep : Prop} {t : Token}

theorem Beside.lookup (h : F.Beside a s c) : c.tokens[c.position]? = (a ++ F.second).head? := by
  obtain ⟨before, hb⟩ := h.suffix
  have hp : c.position = before.length := by
    have := h.position
    rw [← hb, List.length_append] at this
    omega
  rw [h.tokens, hp, ← hb, List.append_assoc, List.getElem?_append_right (Nat.le_refl _),
    Nat.sub_self, List.head?_eq_getElem?]

theorem Beside.onward (h : F.Beside a s c) : F.Onward deep a a s s c :=
  ⟨h, List.suffix_refl _, Nat.le_refl _, fun _ => .inl⟩

theorem Onward.imp {deep' : Prop} (h : F.Onward deep a a' s s' c') (hd : deep → deep') :
    F.Onward deep' a a' s s' c' := by
  refine ⟨h.beside, h.suffix, h.grows, fun d hmem => ?_⟩
  rcases h.problems d hmem with hold | ⟨t, ht, problem, rfl, hdeep⟩
  · exact .inl hold
  · exact .inr ⟨t, ht, problem, rfl, fun he => hd (hdeep he)⟩

theorem Onward.trans {a'' : List Token} {s'' : State} {c'' : Cursor.State}
    (h : F.Onward deep a a' s s' c') (h' : F.Onward deep a' a'' s' s'' c'') :
    F.Onward deep a a'' s s'' c'' :=
  ⟨h'.beside, h'.suffix.trans h.suffix, Nat.le_trans h.grows h'.grows, fun d hmem =>
    (h'.problems d hmem).elim (h.problems d) .inr⟩

/-- Both parsers take the next token. -/
theorem Beside.next (h : F.Beside (t :: a) s c) :
    F.Beside a { s with ahead := a ++ F.first } c.next where
  ahead := rfl
  tokens := h.tokens
  suffix := (List.suffix_cons t a).trans h.suffix
  position := by
    have := h.position
    rw [List.length_cons] at this
    show c.position + 1 + a.length = _
    omega
  furthest := by
    have := h.furthest
    show max c.furthest (c.position + 1) = c.position + 1
    omega
  problems := h.problems

theorem Beside.onward_next (h : F.Beside (t :: a) s c) :
    F.Onward deep (t :: a) a s { s with ahead := a ++ F.first } c.next :=
  ⟨h.next, List.suffix_cons t a, Nat.le_refl _, fun _ => .inl⟩

/-- Both report a problem at the same token. -/
theorem Beside.report (h : F.Beside a s c) (ht : t ∈ F.body ++ F.first) {problem : Problem}
    (hp : problem = .tooDeep → deep) :
    F.Onward deep a a s { s with problems := s.problems.push (.ofToken t problem) }
      { c with problems := c.problems.push (.ofToken t problem) } where
  beside :=
    { ahead := h.ahead
      tokens := h.tokens
      suffix := h.suffix
      position := h.position
      furthest := h.furthest
      problems := by
        show c.problems.push _ = s.problems.push _
        rw [h.problems] }
  suffix := List.suffix_refl _
  grows := by simp
  problems d hmem := by
    rcases Array.mem_push.1 hmem with hold | rfl
    · exact .inl hold
    · exact .inr ⟨t, ht, problem, rfl, hp⟩

/-- What is ahead of the first parser is part of what it reads. -/
theorem Beside.mem (h : F.Beside a s c) (ht : t ∈ s.ahead) : t ∈ F.body ++ F.first := by
  rw [h.ahead] at ht
  exact List.mem_append.2 ((List.mem_append.1 ht).imp (fun ht => h.suffix.subset ht) id)

end Positions

/-! ## Sequences -/

section Sequences

variable {n m : Nat} {M N : Manner} {x : Parse α} {y : Read α} {f : α → Parse β} {g : α → Read β}
  {s : State} {P Q : Prop} {a : List Token} {c : Cursor.State}

theorem Lapses.imp (h : F.Lapses P x s) (hp : Q → P) : F.Lapses Q x s :=
  Ends.imp h (fun _ _ ⟨ha, hs, hr⟩ => ⟨ha, hs, fun hq => hr (hp hq)⟩) fun _ _ he => he

/-- Of two steps that lapse, one must report if it must alone. -/
theorem Lapses.bind (hx : F.Lapses P x s)
    (hf : ∀ v s', s'.ahead = F.first → F.Lapses Q (f v) s') : F.Lapses (P ∨ Q) (x >>= f) s := by
  refine Ends.bind hx fun v s' ⟨ha, hs, hp⟩ => Ends.imp (hf v s' ha) ?_ ?_
  · rintro _ s'' ⟨ha', hs', hq⟩
    refine ⟨ha', Nat.le_trans hs hs', ?_⟩
    rintro (h | h)
    · exact Nat.lt_of_lt_of_le (hp h) hs'
    · exact Nat.lt_of_le_of_lt hs (hq h)
  · rintro e s'' ⟨ha', hs', he⟩
    exact ⟨ha', Nat.le_trans hs hs', fun h => Nat.lt_of_le_of_lt hs (he h)⟩

/-- What the rest of a run shows, the whole run shows. -/
theorem Lapses.after (h : F.Lapses P x' s') (he : x s = x' s')
    (hs : s.problems.size ≤ s'.problems.size) (hq : Q → P ∨ s.problems.size < s'.problems.size) :
    F.Lapses Q x s := by
  cases hr : x' s' with
  | ok v s'' =>
    obtain ⟨ha, hle, hp⟩ := Ends.ok h hr
    refine Ends.of_ok (he.trans hr) ⟨ha, Nat.le_trans hs hle, fun h => ?_⟩
    rcases hq h with h | h
    · exact Nat.lt_of_le_of_lt hs (hp h)
    · exact Nat.lt_of_lt_of_le h hle
  | error e s'' =>
    obtain ⟨ha, hle, hp⟩ := Ends.error h hr
    exact Ends.of_error (he.trans hr) ⟨ha, Nat.le_trans hs hle, fun hq =>
      Nat.lt_of_le_of_lt hs (hp hq)⟩

theorem Meets.suits (h : F.Meets M a x y s c) (hm : M.Suits N) : F.Meets N a x y s c := by
  obtain ⟨v, a', s', c', hx, hy, ho, ht⟩ | ⟨e, a', s', c', hx, hy, ho, hd, he⟩ | ⟨hne, hl⟩ := h
  · exact .inl ⟨v, a', s', c', hx, hy, ho.imp hm.deep, fun h => ht (hm.takes h)⟩
  · exact .inr (.inl ⟨e, a', s', c', hx, hy, ho.imp hm.deep, fun h => hm.deep (hd h), he⟩)
  · exact .inr (.inr ⟨hne, hl.imp hm.seals⟩)

theorem Abreast.suits (h : F.Abreast n M x y) (hm : M.Suits N) : F.Abreast n N x y :=
  ⟨fun ha hs => (h.meets ha hs).suits hm, fun s hs => (h.lapses s hs).imp hm.fails⟩

theorem Abreast.deeper {takes d d' : Prop} (h : F.Abreast n ⟨takes, seals, fails, d⟩ x y)
    (hd : d → d') : F.Abreast n ⟨takes, seals, fails, d'⟩ x y :=
  h.suits ⟨id, id, id, hd⟩

/-- With fewer tokens ahead. -/
theorem Abreast.mono (h : F.Abreast n M x y) (hm : m ≤ n) : F.Abreast m M x y :=
  ⟨fun ha => h.meets (Nat.le_trans ha hm), h.lapses⟩

theorem Abreast.inside (h : F.Abreast n M x y) : F.AbreastInside n M x y :=
  ⟨fun _ ha => h.meets ha, h.lapses⟩

/-- After two runs in step, what follows them decides. -/
theorem Meets.after {y' : Read α} (h : F.Meets N a' x' y' s' c') (ho : F.Onward M.deep a a' s s' c')
    (hx : x s = x' s') (hy : y c = y' c') (ht : M.takes → N.takes ∨ a'.length < a.length)
    (hs : M.seals → N.seals ∨ s.problems.size < s'.problems.size) (hd : N.deep → M.deep) :
    F.Meets M a x y s c := by
  obtain ⟨v, a'', s'', c'', hr, hr', ho', htakes⟩ |
    ⟨e, a'', s'', c'', hr, hr', ho', hdeep, hout, hparse⟩ | ⟨hne, hl⟩ := h
  · refine .inl ⟨v, a'', s'', c'', hx.trans hr, hy.trans hr', ho.trans (ho'.imp hd), fun hm => ?_⟩
    have := ho'.suffix.length_le
    have := ho.suffix.length_le
    rcases ht hm with hn | hlt
    · have := htakes hn
      omega
    · omega
  · exact .inr (.inl ⟨e, a'', s'', c'', hx.trans hr, hy.trans hr', ho.trans (ho'.imp hd),
      fun he => hd (hdeep he), hout, fun he => Nat.lt_of_le_of_lt ho.grows (hparse he)⟩)
  · exact .inr (.inr ⟨hne, hl.after hx ho.grows hs⟩)

/-- One rule after the other. The second one has to be known only for the tokens that the first one
leaves. -/
theorem Meets.bind (hx : F.Meets M a x y s c)
    (hm : ∀ a' : List Token, a'.length ≤ a.length → (M.takes → a'.length < a.length) →
      a'.length ≤ m) (hf : ∀ v, F.Abreast m N (f v) (g v)) :
    F.Meets (M.andThen N) a (x >>= f) (y >>= g) s c := by
  obtain ⟨v, a', s', c', hr, hr', ho, htakes⟩ |
    ⟨e, a', s', c', hr, hr', ho, hdeep, he⟩ | ⟨hne, hl⟩ := hx
  · refine ((hf v).meets (hm a' ho.suffix.length_le htakes) ho.beside).after (ho.imp .inl)
      (bind_of_ok hr) (bind_of_ok hr') ?_ (fun h => .inl h.2) .inr
    rintro (h | h)
    · exact .inr (htakes h)
    · exact .inl h
  · exact .inr (.inl ⟨e, a', s', c', bind_of_error hr, bind_of_error hr', ho.imp .inl,
      fun h => .inl (hdeep h), he⟩)
  · exact .inr (.inr ⟨hne, (hl.bind fun v => (hf v).lapses).imp And.left⟩)

theorem Abreast.bind (hx : F.Abreast n M x y) (hf : ∀ v, F.Abreast n N (f v) (g v)) :
    F.Abreast n (M.andThen N) (x >>= f) (y >>= g) where
  meets ha hs := (hx.meets ha hs).bind (fun _ hle _ => Nat.le_trans hle ha) hf
  lapses s hs := (hx.lapses s hs).bind fun v => (hf v).lapses

theorem abreast_pure (v : α) : F.Abreast n ⟨False, True, False, False⟩ (pure v) (pure v) where
  meets _ hs := .inl ⟨v, _, _, _, rfl, rfl, hs.onward, False.elim⟩
  lapses _ hs := Ends.pure ⟨hs, Nat.le_refl _, False.elim⟩

theorem abreast_tooDeep :
    F.Abreast n (.closed True) (throw .tooDeep : Parse α)
      (throw (.stopped .tooDeep)) where
  meets _ hs := .inr (.inl ⟨_, _, _, _, rfl, rfl, hs.onward, by simp⟩)
  lapses _ hs := Ends.throw ⟨hs, Nat.le_refl _, by simp⟩

theorem Abreast.map (h : α → β) (hx : F.Abreast n M x y) : F.Abreast n M (h <$> x) (h <$> y) := by
  rw [← bind_pure_comp, ← bind_pure_comp]
  exact (hx.bind fun v => abreast_pure (h v)).suits
    ⟨.inl, fun hm => ⟨.inl hm, trivial⟩, .inl, fun hd => hd.resolve_right id⟩

end Sequences

/-! ## Tokens -/

section Tokens

variable {n : Nat} {M N S : Manner} {a : List Token} {s : State} {c : Cursor.State}
  {kinds : List Token.Kind} {kind : Token.Kind} {P : Prop}

/-- What the two parsers see: the same token before the fork, the same end of the program, nothing,
or different things at the fork. -/
inductive Sight (F : Fork) (a : List Token) (s : State) (c : Cursor.State) : Prop where
  | token {t : Token} {rest : List Token} (inside : a = t :: rest) (kind : t.kind ≠ .eof)
      (ahead : s.ahead = t :: (rest ++ F.first)) (lookup : c.tokens[c.position]? = some t)
  | finish {e : Token} {rest : List Token} (outside : a = []) (kind : e.kind = .eof)
      (ahead : s.ahead = e :: rest) (lookup : c.tokens[c.position]? = some e)
  | nothing (first : F.first = []) (ahead : s.ahead = []) (lookup : c.tokens[c.position]? = none)
  | parted (differ : F.first.head? ≠ F.second.head?) (ahead : s.ahead = F.first)
      (lookup : c.tokens[c.position]? = F.second.head?)

/-- What the two parsers see, by what they have ahead. -/
theorem Beside.sight (h : F.Beside a s c) : F.Sight a s c := by
  have hlookup := h.lookup
  have hahead := h.ahead
  cases a with
  | cons t rest =>
    have ht : t ∈ F.body := h.suffix.subset List.mem_cons_self
    exact .token rfl (F.inside t ht) hahead hlookup
  | nil =>
    rw [List.nil_append] at hlookup hahead
    by_cases hsame : F.first.head? = F.second.head?
    · rw [← hsame] at hlookup
      cases hfirst : F.first with
      | nil =>
        rw [hfirst] at hlookup hahead
        exact .nothing hfirst hahead hlookup
      | cons e rest =>
        rw [hfirst] at hlookup hahead
        exact .finish rfl (F.ends e (by simp [hfirst])) hahead hlookup
    · exact .parted hsame hahead hlookup

/-- The first parser at the end of the program. -/
theorem first_cases (hs : s.ahead = F.first) :
    s.ahead = [] ∨ ∃ e rest, s.ahead = e :: rest ∧ e.kind = .eof := by
  cases hfirst : F.first with
  | nil => exact .inl (hs.trans hfirst)
  | cons e rest => exact .inr ⟨e, rest, hs.trans hfirst, F.ends e (by simp [hfirst])⟩

theorem lapses_outOfTokens (hs : s.ahead = F.first) (hx : x s = .error .outOfTokens s) :
    F.Lapses P x s :=
  Ends.of_error hx ⟨hs, Nat.le_refl _, by simp⟩

/-- Both parsers stop since nothing is left. -/
theorem meets_outOfTokens (hs : F.Beside a s c) (hf : F.first = [])
    (hx : x s = .error .outOfTokens s) (hy : y c = .error (.stopped .outOfTokens) c) :
    F.Meets M a x y s c :=
  .inr (.inl ⟨_, a, s, c, hx, hy, hs.onward, by simp, fun _ => hf, by simp⟩)

/-- Both parsers stop with a report at the same token. -/
theorem meets_reported (hs : F.Beside a s c) {t : Token} (ht : t ∈ s.ahead) {what : Expected}
    (hx : x s = .error .syntaxProblem
      { s with problems := s.problems.push (.ofToken t (.expected what)) })
    (hy : y c = .error (.stopped .syntaxProblem)
      { c with problems := c.problems.push (.ofToken t (.expected what)) }) : F.Meets M a x y s c :=
  .inr (.inl ⟨_, a, _, _, hx, hy, hs.report (hs.mem ht) (by simp), by simp, by simp, by simp⟩)

theorem peek_of_nil (hs : s.ahead = []) : peek s = .error .outOfTokens s := by
  simp [peek, hs]

theorem lapses_fail (what : Expected) (hs : s.ahead = F.first) :
    F.Lapses P (fail what : Parse α) s := by
  obtain hnil | ⟨e, rest, he, -⟩ := first_cases hs
  · exact lapses_outOfTokens hs (bind_of_error (peek_of_nil hnil))
  · exact Ends.of_error (fail_eq he what) ⟨hs, by simp, by simp⟩

theorem abreast_fail (what : Expected) :
    F.Abreast n (.closed False) (fail what : Parse α) (Cursor.fail what) where
  meets _ hs := by
    cases hs.sight with
    | token _ _ ha hl | finish _ _ ha hl =>
      exact meets_reported hs (by simp [ha]) (fail_eq ha what) (Cursor.fail_eq hl what)
    | nothing hf ha hl =>
      exact meets_outOfTokens hs hf (bind_of_error (peek_of_nil ha))
        (bind_of_error (Cursor.peek_of_none hl))
    | parted hne ha _ => exact .inr (.inr ⟨hne, lapses_fail what ha⟩)
  lapses _ hs := lapses_fail what hs

theorem lapses_expect (hk : kind ≠ .eof) (what : Expected) (hs : s.ahead = F.first) :
    F.Lapses P (expect kind what) s := by
  obtain hnil | ⟨e, rest, he, hend⟩ := first_cases hs
  · exact lapses_outOfTokens hs (bind_of_error (peek_of_nil hnil))
  · have hne : e.kind ≠ kind := fun h => hk (h.symm.trans hend)
    exact (lapses_fail what hs).after (P := P) (expect_of_ne he hne what) (Nat.le_refl _) .inl

/-- A token that must be there. -/
theorem abreast_expect (hk : kind ≠ .eof) (what : Expected) :
    F.Abreast n (.closed False) (expect kind what) (Cursor.expect kind what) where
  meets _ hs := by
    cases hs.sight with
    | @token t rest hin _ ha hl =>
      subst hin
      by_cases ht : t.kind = kind
      · exact .inl ⟨t, rest, _, _, expect_of_eq ha ht what, Cursor.expect_of_eq hl hk ht what,
          hs.onward_next, by simp⟩
      · exact meets_reported hs (by simp [ha]) ((expect_of_ne ha ht what).trans (fail_eq ha what))
          ((Cursor.expect_of_ne hl hk ht what).trans (Cursor.fail_eq hl what))
    | @finish e _ _ he ha hl =>
      have hne : e.kind ≠ kind := fun h => hk (h.symm.trans he)
      exact meets_reported hs (by simp [ha]) ((expect_of_ne ha hne what).trans (fail_eq ha what))
        ((Cursor.expect_of_ne hl hk hne what).trans (Cursor.fail_eq hl what))
    | nothing hf ha hl =>
      exact meets_outOfTokens hs hf (bind_of_error (peek_of_nil ha))
        (bind_of_error (Cursor.check_of_none hl))
    | parted hne ha _ => exact .inr (.inr ⟨hne, lapses_expect hk what ha⟩)
  lapses _ hs := lapses_expect hk what hs

variable {f : Option Token → Parse β}

/-- The first parser takes no token at the end of the program. -/
theorem lapses_accept (hk : .eof ∉ kinds) (hs : s.ahead = F.first) (hf : F.Lapses P (f none) s) :
    F.Lapses P (accept? kinds >>= f) s := by
  obtain hnil | ⟨e, rest, he, hend⟩ := first_cases hs
  · exact lapses_outOfTokens hs (bind_of_error (bind_of_error (peek_of_nil hnil)))
  · have hne : e.kind ∉ kinds := hend ▸ hk
    exact hf.after (bind_of_ok (accept_of_not_mem he hne)) (Nat.le_refl _) .inl

/-- No parser takes a token of these kinds at the fork. -/
def Passes (F : Fork) (kinds : List Token.Kind) : Prop :=
  F.first ≠ [] → ∃ t ∈ F.second.head?, t.kind ∉ kinds

@[simp]
theorem passes_else : F.Passes [.kwElse] :=
  F.goesOn

/-- A token that may be there, and what follows in either case. -/
theorem Abreast.accept {g : Option Token → Read β} (hk : .eof ∉ kinds) (hne : kinds ≠ [])
    (hnone : F.Abreast n N (f none) (g none)) (hsome : ∀ t ∈ F.body, t.kind ∈ kinds → 0 < n →
      F.Abreast (n - 1) S (f (some t)) (g (some t))) :
    F.Abreast n
      ⟨N.takes, N.seals ∧ S.seals ∧ (N.fails ∨ F.Passes kinds), N.fails, N.deep ∨ S.deep⟩
      (accept? kinds >>= f) (Cursor.accept? kinds >>= g) where
  meets {a s c} hlen hs := by
    -- whenever no token is taken, what follows `none` decides
    have hskip {t u : Token} {rest : List Token} (ha : s.ahead = t :: rest) (ht : t.kind ∉ kinds)
        (hl : c.tokens[c.position]? = some u) (hu : u.kind ∉ kinds) :=
      (hnone.meets hlen hs).after (M := ⟨N.takes, N.seals ∧ S.seals ∧ (N.fails ∨ F.Passes kinds),
        N.fails, N.deep ∨ S.deep⟩) hs.onward (bind_of_ok (accept_of_not_mem ha ht))
        (bind_of_ok (Cursor.accept_of_not_mem hl hk hu)) .inl (fun h => .inl h.1) .inl
    cases hs.sight with
    | @token t rest hin hend ha hl =>
      by_cases ht : t.kind ∈ kinds
      · subst hin
        have hrest : rest.length + 1 ≤ n := hlen
        have hmem : t ∈ F.body := hs.suffix.subset List.mem_cons_self
        exact ((hsome t hmem ht (by omega)).meets (a := rest) (by omega) hs.next).after hs.onward_next
          (bind_of_ok (accept_of_mem ha ht)) (bind_of_ok (Cursor.accept_of_mem hl hend hk ht))
          (fun _ => .inr (by simp)) (fun h => .inl h.2.1) .inr
      · exact hskip ha ht hl ht
    | finish _ he ha hl => exact hskip ha (he ▸ hk) hl (he ▸ hk)
    | nothing hf ha hl =>
      exact meets_outOfTokens hs hf (bind_of_error (bind_of_error (peek_of_nil ha)))
        (bind_of_error (Cursor.accept_of_none hl hne))
    | parted hdiffer ha hl =>
      have hlapses := lapses_accept hk ha (hnone.lapses s ha)
      by_cases hpasses : F.Passes kinds
      · obtain hnil | ⟨e, rest, he, hend⟩ := first_cases ha
        · exact .inr (.inr ⟨hdiffer, lapses_outOfTokens ha
            (bind_of_error (bind_of_error (peek_of_nil hnil)))⟩)
        · obtain ⟨u, hu, hnot⟩ := hpasses (by rw [← ha, he]; exact List.cons_ne_nil _ _)
          exact hskip he (hend ▸ hk) (hl.trans (Option.mem_def.1 hu)) hnot
      · exact .inr (.inr ⟨hdiffer, hlapses.imp fun h => h.2.2.resolve_right hpasses⟩)
  lapses s hs := lapses_accept hk hs (hnone.lapses s hs)

/-- The first parser sees no token of the kind at the end of the program. -/
theorem lapses_check {f : Bool → Parse β} (hk : kind ≠ .eof) (hs : s.ahead = F.first)
    (hf : F.Lapses P (f false) s) : F.Lapses P (check kind >>= f) s := by
  obtain hnil | ⟨e, rest, he, hend⟩ := first_cases hs
  · exact lapses_outOfTokens hs (bind_of_error (bind_of_error (peek_of_nil hnil)))
  · refine hf.after (bind_of_ok ((check_eq he).trans ?_)) (Nat.le_refl _) .inl
    rw [beq_eq_false_iff_ne.2 fun h => hk (h.symm.trans hend)]

/-- A look whether a token is there, and what follows in either case. -/
theorem Abreast.check {f : Bool → Parse β} {g : Bool → Read β} (hk : kind ≠ .eof)
    (htrue : F.Abreast n S (f true) (g true)) (hfalse : F.Abreast n N (f false) (g false)) :
    F.Abreast n ⟨S.takes ∧ N.takes, S.seals ∧ N.seals ∧ N.fails, N.fails, S.deep ∨ N.deep⟩
      (Parser.check kind >>= f) (Cursor.check kind >>= g) where
  meets {a s c} hlen hs := by
    have hlook {t : Token} {rest : List Token} (ha : s.ahead = t :: rest)
        (hl : c.tokens[c.position]? = some t) : F.Meets
          ⟨S.takes ∧ N.takes, S.seals ∧ N.seals ∧ N.fails, N.fails, S.deep ∨ N.deep⟩ a
          (Parser.check kind >>= f) (Cursor.check kind >>= g) s c := by
      have hx : (Parser.check kind >>= f) s = f (t.kind == kind) s := bind_of_ok (check_eq ha)
      have hy : (Cursor.check kind >>= g) c = g (t.kind == kind) c :=
        bind_of_ok (Cursor.check_eq hl hk)
      cases ht : t.kind == kind with
      | true =>
        rw [ht] at hx hy
        exact (htrue.meets hlen hs).after hs.onward hx hy (fun h => .inl h.1)
          (fun h => .inl h.1) .inl
      | false =>
        rw [ht] at hx hy
        exact (hfalse.meets hlen hs).after hs.onward hx hy (fun h => .inl h.2)
          (fun h => .inl h.2.1) .inr
    cases hs.sight with
    | token _ _ ha hl | finish _ _ ha hl => exact hlook ha hl
    | nothing hf ha hl =>
      exact meets_outOfTokens hs hf (bind_of_error (bind_of_error (peek_of_nil ha)))
        (bind_of_error (Cursor.check_of_none hl))
    | parted hdiffer ha _ =>
      exact .inr (.inr ⟨hdiffer, (lapses_check hk ha (hfalse.lapses s ha)).imp fun h => h.2.2⟩)
  lapses s hs := lapses_check hk hs (hfalse.lapses s hs)

/-- A report at the token ahead, and what follows. -/
theorem Abreast.reportAhead {problem : Problem} (hp : problem = .tooDeep → M.deep)
    (hx : F.Abreast n M x y) :
    F.Abreast n M (peek >>= fun t => report t problem >>= fun _ => x)
      (Cursor.peek >>= fun t => Cursor.report t problem >>= fun _ => y) := by
  -- a report at the end of the program is one that no rule has to make
  have hlapse {s : State} {P : Prop} (hs : s.ahead = F.first) :
      F.Lapses P (peek >>= fun t => report t problem >>= fun _ => x) s := by
    obtain hnil | ⟨e, rest, he, -⟩ := first_cases hs
    · exact lapses_outOfTokens hs (bind_of_error (peek_of_nil hnil))
    · exact (hx.lapses { s with problems := s.problems.push (.ofToken e problem) } hs).after
        (bind_of_ok (peek_eq he)) (by simp) fun _ => .inr (by simp)
  refine ⟨fun {a s c} hlen hs => ?_, fun s => hlapse⟩
  have hlook {t : Token} {rest : List Token} (ha : s.ahead = t :: rest)
      (hl : c.tokens[c.position]? = some t) :=
    have ho := hs.report (t := t) (hs.mem (by simp [ha])) hp
    (hx.meets hlen ho.beside).after ho
      (bind_of_ok (f := fun t => report t problem >>= fun _ => x) (peek_eq ha))
      (bind_of_ok (f := fun t => Cursor.report t problem >>= fun _ => y) (Cursor.peek_eq hl))
      .inl .inl id
  cases hs.sight with
  | token _ _ ha hl | finish _ _ ha hl => exact hlook ha hl
  | nothing hf ha hl =>
    exact meets_outOfTokens hs hf (bind_of_error (peek_of_nil ha))
      (bind_of_error (Cursor.peek_of_none hl))
  | parted hdiffer ha _ => exact .inr (.inr ⟨hdiffer, hlapse ha⟩)

/-- A report that depends on a condition. -/
theorem Abreast.reportIf (condition : Prop) [Decidable condition] {problem : Problem}
    (hp : problem = .tooDeep → M.deep) {x : Parse α} {y : Read α} (hx : F.Abreast n M x y) :
    F.Abreast n M
      (do
        if condition then
          let t ← peek
          report t problem
        x)
      (do
        if condition then
          let t ← Cursor.peek
          Cursor.report t problem
        y) := by
  split
  · exact hx.reportAhead hp
  · exact hx

end Tokens

/-! ## Expressions -/

section Expressions

variable {n m : Nat} {d : Prop} {operand expression item : Parse Tree}
  {operand' expression' item' : Read Tree}
  {fuel fuel' room room' w : Nat}

theorem abreast_chain {level : Level} (hk : .eof ∉ level.kinds) (hne : level.kinds ≠ [])
    (h : F.Abreast n (.unclosed d) operand operand') : ∀ {m fuel fuel' : Nat} (left : Tree), m ≤ n →
      m < fuel → m < fuel' → F.Abreast m (.optional d) (chain level operand fuel left)
        (chain level operand' fuel' left)
  | m, fuel + 1, fuel' + 1, left, hm, hf, hf' => by
    refine .suits (.accept hk hne (abreast_pure left) fun operator _ _ hpos =>
      (h.mono ?_).bind fun right => abreast_chain hk hne h _ ?_ ?_ ?_) (by simp)
    all_goals omega

theorem abreast_joined {level : Level} (hk : .eof ∉ level.kinds) (hne : level.kinds ≠ [])
    (h : F.Abreast n (.unclosed d) operand operand') (hf : n < fuel) (hf' : n < fuel') :
    F.Abreast n (.unclosed d) (joined fuel level operand)
      (joined fuel' level operand') :=
  .suits (h.bind fun left => abreast_chain hk hne h left (Nat.le_refl n) hf hf') (by simp)

theorem abreast_listedFrom {tooMany : Problem} (hp : tooMany ≠ .tooDeep)
    (h : F.Abreast n (.unclosed d) item item') :
    ∀ {m fuel fuel' : Nat} (done : List Tree), m ≤ n → m < fuel → m < fuel' →
      F.Abreast m (.unclosed d) (listedFrom tooMany item fuel done)
        (listedFrom tooMany item' fuel' done)
  | m, fuel + 1, fuel' + 1, done, hm, hf, hf' => by
    refine .reportIf _ (absurd · hp) (.suits ((h.mono hm).bind fun t => .accept (by decide)
      (by decide) (abreast_pure _) fun _ _ _ hpos => abreast_listedFrom hp h _ ?_ ?_ ?_) (by simp))
    all_goals omega

theorem abreast_listed {tooMany : Problem} (hp : tooMany ≠ .tooDeep)
    (h : F.Abreast n (.unclosed d) item item') (hf : n < fuel) (hf' : n < fuel') :
    F.Abreast n ⟨False, False, True, d⟩ (listed fuel tooMany item)
      (listed fuel' tooMany item') :=
  .suits (.check (by decide) (abreast_pure []) (abreast_listedFrom hp h [] (Nat.le_refl n) hf hf'))
    (by simp)

/-- The accesses after an expression are read alike. -/
theorem abreast_accesses {loop loop' : Nat} (hl : n < loop) (hl' : n < loop')
    (h : 0 < n → F.Abreast (n - 1) (.unclosed d) expression expression') :
    ∀ {m fuel fuel' : Nat} (tree : Tree), m ≤ n → m < fuel → m < fuel' →
      F.Abreast m (.optional d) (accesses loop expression fuel tree)
        (accesses loop' expression' fuel' tree)
  | m, fuel + 1, fuel' + 1, tree, hm, hf, hf' => by
    have hmore (tree : Tree) (hpos : 0 < m) : F.Abreast (m - 1) (.optional d)
        (accesses loop expression fuel tree) (accesses loop' expression' fuel' tree) :=
      abreast_accesses hl hl' h tree (by omega) (by omega) (by omega)
    refine .suits (.accept (S := .optional d) (by decide) (by decide) (abreast_pure tree)
      fun t _ _ hpos => ?_) (by simp)
    dsimp only
    split
    · have hless {k : Nat} : n < k → n - 1 < k := Nat.lt_of_le_of_lt (Nat.sub_le n 1)
      exact .suits (((abreast_listed (by simp) (h (by omega)) (hless hl) (hless hl')).mono
        (Nat.sub_le_sub_right hm 1)).bind fun _ => (abreast_expect (by decide) _).bind fun _ =>
          hmore _ hpos) (by simp)
    · exact .suits ((abreast_expect (by decide) _).bind fun _ => hmore _ hpos) (by simp)

/-- A primary expression is read alike. -/
theorem abreast_primary (h : 0 < n → F.Abreast (n - 1) (.unclosed d) expression expression') :
    F.Abreast n (.closed d) (primary expression) (primary expression') := by
  refine .suits (.accept (S := ⟨False, True, False, d⟩) (by decide) (by decide) (abreast_fail _)
    fun t _ _ hpos => ?_) (by simp)
  dsimp only
  split_ifs
  · exact .suits ((abreast_expect (by decide) _).bind fun _ =>
      (abreast_expect (by decide) _).bind fun _ => abreast_pure _) (by simp)
  · exact .suits (abreast_pure _) (by simp)
  · exact .suits (abreast_pure _) (by simp)
  · exact .suits ((h hpos).bind fun _ => (abreast_expect (by decide) _).bind fun _ =>
      abreast_pure _) (by simp)
  · exact .suits (abreast_pure _) (by simp)

theorem abreast_report {t : Token} (ht : t ∈ F.body) {problem : Problem}
    (hp : problem ≠ .tooDeep) :
    F.Abreast n ⟨False, True, False, False⟩ (report t problem) (Cursor.report t problem) where
  meets _ hs := .inl ⟨(), _, _, _, rfl, rfl, hs.report (List.mem_append_left _ ht) hp, False.elim⟩
  lapses _ hs := Ends.of_ok rfl ⟨hs, by simp, False.elim⟩

theorem abreast_assignTo {equals : Token} (he : equals ∈ F.body) (target value : Tree) :
    F.Abreast n ⟨False, True, False, False⟩ (assignTo equals target value)
      (assignTo equals target value) := by
  cases target with
  | ident name depth => exact abreast_pure _
  | getField object name => exact abreast_pure _
  | _ => exact .suits ((abreast_report he (by simp)).bind fun _ => abreast_pure _) (by simp)

/-- How much room it takes to get through the levels to a primary expression. -/
def weight : List Level → Nat
  | [] => 3
  | level :: tighter => (if level.twofold then 2 else 1) + weight tighter

theorem weight_pos : ∀ ls : List Level, 0 < weight ls
  | [] => by decide
  | level :: tighter => Nat.add_pos_right _ (weight_pos tighter)

/-- Both rooms are the same, or both are large enough for a rule of the weight and `n` tokens. -/
def Roomy (weight n room room' : Nat) : Prop :=
  room = room' ∨ 20 * n + weight ≤ room ∧ 20 * n + weight ≤ room'

/-- Either there is no room for either parser, or there is room for both. -/
theorem Roomy.split (h : Roomy w n room room') (hw : 0 < w) :
    (room = 0 ∧ room' = 0) ∨ ∃ inner inner', room = inner + 1 ∧ room' = inner' + 1 ∧
      Roomy (w - 1) n inner inner' := by
  unfold Roomy at h ⊢
  by_cases hroom : room = 0
  · exact .inl ⟨hroom, by omega⟩
  · exact .inr ⟨room - 1, room' - 1, by omega, by omega, by omega⟩

/-- Each rule costs one of the room, and without room it is nested too deeply. -/
theorem Roomy.rule {takes : Prop} {x : Nat → Parse α} {y : Nat → Read α} (hr : Roomy w n room room')
    (hw : 0 < w) (hx : x 0 = throw .tooDeep) (hy : y 0 = throw (.stopped .tooDeep))
    (h : ∀ inner inner', room = inner + 1 → Roomy (w - 1) n inner inner' →
      F.Abreast n ⟨takes, seals, fails, inner < 20 * n + (w - 1)⟩ (x (inner + 1)) (y (inner' + 1))) :
    F.Abreast n ⟨takes, seals, fails, room < 20 * n + w⟩ (x room) (y room') := by
  obtain ⟨rfl, rfl⟩ | ⟨inner, inner', rfl, rfl, hinner⟩ := hr.split hw
  · rw [hx, hy]
    exact abreast_tooDeep.suits (by simp; omega)
  · exact (h inner inner' rfl hinner).deeper (by omega)

theorem Roomy.mono {v : Nat} (h : Roomy w n room room') (hle : 20 * m + v ≤ 20 * n + w) :
    Roomy v m room room' := by
  unfold Roomy at h ⊢
  omega

/-- The operators of a level can be taken. -/
def Level.Taken (level : Level) : Prop :=
  .eof ∉ level.kinds ∧ level.kinds ≠ []

theorem taken_levels : ∀ level ∈ levels, Level.Taken level := by
  intro level hmem
  simp only [levels, List.mem_cons, List.not_mem_nil, or_false] at hmem
  unfold Level.Taken
  rcases hmem with rfl | rfl | rfl | rfl | rfl | rfl <;> decide

/-- The rules of expressions. The room of each is smaller than that of the rule that calls it. -/
theorem abreast_expressions (room : Nat) :
    ∀ n room', n < fuel → n < fuel' →
      (∀ ls, (∀ level ∈ ls, Level.Taken level) → Roomy (weight ls) n room room' →
        F.Abreast n (.unclosed (room < 20 * n + weight ls)) (operators fuel ls room)
          (operators fuel' ls room')) ∧
      (Roomy 2 n room room' → F.Abreast n (.unclosed (room < 20 * n + 2)) (access fuel room)
        (access fuel' room')) ∧
      (Roomy 14 n room room' → F.Abreast n (.unclosed (room < 20 * n + 14)) (assignment fuel room)
        (assignment fuel' room')) ∧
      (Roomy 15 n room room' → F.Abreast n (.unclosed (room < 20 * n + 15))
        (Parser.expression fuel room) (Parser.expression fuel' room')) := by
  induction room using Nat.strongRecOn with
  | _ room ih =>
  intro n room' hf hf'
  refine ⟨fun ls hls hr => ?_, fun hr => ?_, fun hr => ?_, fun hr => ?_⟩
  · refine hr.rule (weight_pos ls) (by unfold operators; rfl) (by unfold operators; rfl)
      fun inner inner' hroom hr => ?_
    obtain ⟨hoperators, haccess, -, -⟩ := ih inner (by omega) n inner' hf hf'
    cases ls with
    | nil =>
      have hright (h : 0 < n) : F.Abreast (n - 1) (.unclosed (inner < 20 * n + 2))
          (operators fuel [] inner) (operators fuel' [] inner') :=
        ((ih inner (by omega) (n - 1) inner' (by omega) (by omega)).1 [] hls
          (hr.mono (by simp only [weight]; omega))).deeper (by simp only [weight]; omega)
      unfold operators
      exact .suits (.accept (by decide) (by decide) (haccess hr)
        fun t _ _ h => (hright h).bind fun _ => abreast_pure _) (by simp [weight])
    | cons level tighter =>
      obtain ⟨⟨hk, hne⟩, htighter⟩ := List.forall_mem_cons.1 hls
      obtain ⟨kinds, tree, twofold⟩ := level
      cases twofold with
      | false =>
        have hweight : weight (⟨kinds, tree, false⟩ :: tighter) - 1 = weight tighter := by
          simp [weight]
        rw [hweight] at hr ⊢
        unfold operators
        exact abreast_joined hk hne (hoperators tighter htighter hr) hf hf'
      | true =>
        have hweight : weight (⟨kinds, tree, true⟩ :: tighter) - 1 = weight tighter + 1 := by
          simp [weight]
          omega
        rw [hweight] at hr ⊢
        refine hr.rule (x := fun k => operators fuel (⟨kinds, tree, true⟩ :: tighter) (k + 1))
          (y := fun k => operators fuel' (⟨kinds, tree, true⟩ :: tighter) (k + 1))
          (Nat.succ_pos _) (by unfold operators; rfl) (by unfold operators; rfl)
          fun within within' hwithin hr => ?_
        rw [Nat.add_sub_cancel] at hr ⊢
        unfold operators
        exact abreast_joined hk hne ((ih within (by omega) n within' hf hf').1 tighter htighter hr)
          hf hf'
  · refine hr.rule (by decide) (by unfold access; rfl) (by unfold access; rfl)
      fun inner inner' hroom hr => ?_
    refine hr.rule (x := fun inner => access fuel (inner + 1))
      (y := fun inner' => access fuel' (inner' + 1)) (by decide) (by unfold access; rfl)
      (by unfold access; rfl) fun within within' hwithin hr => ?_
    have hexpression (h : 0 < n) : F.Abreast (n - 1) (.unclosed (within < 20 * n))
        (Parser.expression fuel within) (Parser.expression fuel' within') :=
      ((ih within (by omega) (n - 1) within' (by omega) (by omega)).2.2.2
        (hr.mono (by omega))).deeper (by omega)
    show F.Abreast n _ (access fuel (within + 2)) (access fuel' (within' + 2))
    unfold access
    exact .suits ((abreast_primary hexpression).bind fun e =>
      abreast_accesses hf hf' hexpression e (Nat.le_refl n) hf hf') (by simp)
  · refine hr.rule (by decide) (by unfold assignment; rfl) (by unfold assignment; rfl)
      fun inner inner' hroom hr => ?_
    have htarget := (ih inner (by omega) n inner' hf hf').1 levels taken_levels hr
    have hvalue (h : 0 < n) : F.Abreast (n - 1) (.unclosed (inner < 20 * n + 13))
        (assignment fuel inner) (assignment fuel' inner') :=
      ((ih inner (by omega) (n - 1) inner' (by omega) (by omega)).2.2.1
        (hr.mono (by omega))).deeper (by omega)
    unfold assignment
    exact .suits (htarget.bind fun target => .accept (by decide) (by decide) (abreast_pure target)
      fun equals hmem _ h => (hvalue h).bind fun value => abreast_assignTo hmem target value)
      (by simp [weight, levels])
  · refine hr.rule (by decide) (by unfold Parser.expression; rfl) (by unfold Parser.expression; rfl)
      fun inner inner' hroom hr => ?_
    unfold Parser.expression
    exact (ih inner (by omega) n inner' hf hf').2.2.1 hr

theorem abreast_expression (hf : n < fuel) (hf' : n < fuel') (hr : Roomy 15 n room room') :
    F.Abreast n (.unclosed (room < 20 * n + 15))
      (Parser.expression fuel room) (Parser.expression fuel' room') :=
  (abreast_expressions room n room' hf hf').2.2.2 hr

end Expressions

end Fork

end LoxLang.Parser
