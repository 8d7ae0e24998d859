import Mathlib.Tactic.SplitIfs
import LoxLang.Proofs.Outcome
import LoxLang.Tree.Parser

/-!
# Runs of the parser

Whatever the parser does, it drops tokens from the front and never the end of the program, it only
adds to the problems, and it stops with a syntax problem only after a report (`Progress`,
`Interrupt.Fair`). `Parses` adds to this what a run without a report has read. The rules for
building a parser carry it from the parts to the whole, so that each rule of the grammar needs one
proof.
-/

namespace LoxLang.Parser

variable {α β : Type} {ts : List Token} {t : Token} {s : State}

/-- The last token is the end of the program, and no other one is. -/
def Terminated (ts : List Token) : Prop :=
  ∃ body last, ts = body ++ [last] ∧ last.kind = .eof ∧ ∀ t ∈ body, t.kind ≠ .eof

theorem Terminated.exists_cons (h : Terminated ts) : ∃ t rest, ts = t :: rest := by
  obtain ⟨body, last, rfl, -, -⟩ := h
  cases body with
  | nil => exact ⟨last, [], rfl⟩
  | cons t body => exact ⟨t, body ++ [last], rfl⟩

/-- A token that is not the end can be dropped. -/
theorem Terminated.tail (h : Terminated (t :: ts)) (ht : t.kind ≠ .eof) : Terminated ts := by
  obtain ⟨body, last, he, hl, hb⟩ := h
  cases body with
  | nil =>
    obtain ⟨rfl, -⟩ := List.cons.inj he
    exact absurd hl ht
  | cons u body =>
    obtain ⟨rfl, rfl⟩ := List.cons.inj he
    exact ⟨body, last, rfl, hl, fun v hv => hb v (List.mem_cons_of_mem _ hv)⟩

/-- The end of the program is the last token. -/
theorem Terminated.eq_nil (h : Terminated (t :: ts)) (ht : t.kind = .eof) : ts = [] := by
  obtain ⟨body, last, he, -, hb⟩ := h
  cases body with
  | nil => exact (List.cons.inj he).2
  | cons u body =>
    obtain ⟨rfl, -⟩ := List.cons.inj he
    exact absurd ht (hb t List.mem_cons_self)

/-- What any run of the parser keeps. -/
structure Progress (s s' : State) : Prop where
  terminated : Terminated s'.ahead
  ahead : s'.ahead <:+ s.ahead
  problems : s.problems.toList <+: s'.problems.toList
  static : ∀ d ∈ s'.problems, d ∈ s.problems ∨ d.isStatic = true

namespace Progress

variable {s s' : State}

theorem refl (h : Terminated s.ahead) : Progress s s :=
  ⟨h, List.suffix_refl _, List.prefix_refl _, fun _ => .inl⟩

theorem trans {s'' : State} (h : Progress s s') (h' : Progress s' s'') : Progress s s'' :=
  ⟨h'.terminated, h'.ahead.trans h.ahead, h.problems.trans h'.problems, fun d hd =>
    (h'.static d hd).elim (h.static d) .inr⟩

/-- A report is one more problem, and a static one. -/
theorem report (h : Terminated s.ahead) (t : Token) (problem : Problem) :
    Progress s { s with problems := s.problems.push (.ofToken t problem) } := by
  refine ⟨h, List.suffix_refl _, by simp, fun d hd => ?_⟩
  rcases Array.mem_push.1 hd with hd | rfl
  · exact .inl hd
  · exact .inr rfl

theorem size_le (h : Progress s s') : s.problems.size ≤ s'.problems.size := by
  simpa using h.problems.length_le

/-- A run that ends with the problems it started with never had others. -/
theorem problems_eq {s'' : State} (h : Progress s s') (h' : Progress s' s'')
    (he : s''.problems = s.problems) : s'.problems = s.problems ∧ s''.problems = s'.problems := by
  have hs : s'.problems = s.problems := by
    apply Array.ext'
    refine (h.problems.eq_of_length ?_).symm
    have := h.size_le
    have := h'.size_le
    rw [he] at this
    simp only [Array.length_toList]
    omega
  exact ⟨hs, he.trans hs.symm⟩

end Progress

/-- Why a run may stop early: a syntax problem has been reported, and the tokens never run out. -/
structure Interrupt.Fair (e : Interrupt) (s s' : State) : Prop where
  inside : e ≠ .outOfTokens
  reported : e = .syntaxProblem → s.problems.size < s'.problems.size

theorem Interrupt.Fair.trans {e : Interrupt} {s' s'' : State} (h : Progress s s')
    (h' : e.Fair s' s'') : e.Fair s s'' :=
  ⟨h'.inside, fun he => Nat.lt_of_le_of_lt h.size_le (h'.reported he)⟩

/-! ## Tokens

Each of these rules looks at the token ahead only. -/

section Tokens

variable {s : State} {t : Token} {rest : List Token} {kinds : List Token.Kind} {kind : Token.Kind}

theorem peek_eq (hs : s.ahead = t :: rest) : peek s = .ok t s := by
  simp [peek, hs]

theorem check_eq (hs : s.ahead = t :: rest) : check kind s = .ok (t.kind == kind) s := by
  unfold check
  rw [bind_of_ok (peek_eq hs)]
  rfl

theorem report_eq (problem : Problem) :
    report t problem s = .ok () { s with problems := s.problems.push (.ofToken t problem) } :=
  rfl

theorem accept_of_mem (hs : s.ahead = t :: rest) (ht : t.kind ∈ kinds) :
    accept? kinds s = .ok (some t) { s with ahead := rest } := by
  unfold accept?
  rw [bind_of_ok (peek_eq hs), if_pos (by simpa using ht)]
  show EStateM.Result.ok _ { s with ahead := s.ahead.tail } = _
  rw [hs]
  rfl

theorem accept_of_not_mem (hs : s.ahead = t :: rest) (ht : t.kind ∉ kinds) :
    accept? kinds s = .ok none s := by
  unfold accept?
  rw [bind_of_ok (peek_eq hs), if_neg (by simpa using ht)]
  rfl

theorem fail_eq (hs : s.ahead = t :: rest) (what : Expected) :
    (fail what : Parse α) s =
      .error .syntaxProblem
        { s with problems := s.problems.push (.ofToken t (.expected what)) } := by
  unfold fail
  rw [bind_of_ok (peek_eq hs)]
  rfl

theorem expect_of_eq (hs : s.ahead = t :: rest) (ht : t.kind = kind) (what : Expected) :
    expect kind what s = .ok t { s with ahead := rest } := by
  unfold expect
  rw [bind_of_ok (peek_eq hs), if_pos (by simpa using ht)]
  show EStateM.Result.ok _ { s with ahead := s.ahead.tail } = _
  rw [hs]
  rfl

theorem expect_of_ne (hs : s.ahead = t :: rest) (ht : t.kind ≠ kind) (what : Expected) :
    expect kind what s = fail what s := by
  unfold expect
  rw [bind_of_ok (peek_eq hs), if_neg (by simpa using ht)]

end Tokens

/-- The tokens after the one ahead, which is not the end. -/
theorem progress_tail {rest : List Token} (h : Terminated s.ahead) (hs : s.ahead = t :: rest)
    (ht : t.kind ≠ .eof) : Progress s { s with ahead := rest } := by
  refine ⟨(hs ▸ h).tail ht, ?_, List.prefix_refl _, fun _ => .inl⟩
  rw [hs]
  exact List.suffix_cons t rest

/-! ## What a run reads -/

/-- Every run of the rule moves forward. A run that reports nothing, with at most `n` tokens ahead,
has read tokens `ts` that `D` relates to the result and to the tokens left. -/
def Parses (n : Nat) (x : Parse α) (D : List Token → α → List Token → Prop) : Prop :=
  ∀ s, Terminated s.ahead →
    Ends x s
      (fun a s' => Progress s s' ∧ (s'.problems = s.problems → s.ahead.length ≤ n →
        ∃ ts, s.ahead = ts ++ s'.ahead ∧ D ts a s'.ahead))
      fun e s' => Progress s s' ∧ e.Fair s s'

section Parses

variable {n m : Nat} {x : Parse α} {f : α → Parse β} {D D' : List Token → α → List Token → Prop}
  {F : α → List Token → β → List Token → Prop} {kinds : List Token.Kind} {kind : Token.Kind}

theorem Parses.imp (hx : Parses n x D) (h : ∀ ts a rest, D ts a rest → D' ts a rest) :
    Parses n x D' := by
  intro s hs
  refine (hx s hs).imp ?_ fun _ _ he => he
  rintro a s' ⟨hp, hd⟩
  refine ⟨hp, fun hc hn => ?_⟩
  obtain ⟨ts, ht, hD⟩ := hd hc hn
  exact ⟨ts, ht, h _ _ _ hD⟩

/-- With fewer tokens ahead a run reads what it would read with more. -/
theorem Parses.mono (h : m ≤ n) (hx : Parses n x D) : Parses m x D := by
  intro s hs
  refine (hx s hs).imp ?_ fun _ _ he => he
  rintro a s' ⟨hp, hd⟩
  exact ⟨hp, fun hc hm => hd hc (Nat.le_trans hm h)⟩

theorem parses_pure (a : α) : Parses n (pure a) fun ts b _ => ts = [] ∧ b = a :=
  fun _ hs => .pure ⟨.refl hs, fun _ _ => ⟨[], rfl, rfl, rfl⟩⟩

theorem parses_tooDeep : Parses n (throw .tooDeep : Parse α) D :=
  fun _ hs => .throw ⟨.refl hs, by simp, by simp⟩

/-- One part after the other. The second one needs to be known only for the tokens that the first
one leaves. -/
theorem Parses.bindFew (hx : Parses n x D) (hn : ∀ ts a rest, D ts a rest → n ≤ m + ts.length)
    (hf : ∀ a, Parses m (f a) (F a)) :
    Parses n (x >>= f) fun ts b rest =>
      ∃ us a vs, ts = us ++ vs ∧ D us a (vs ++ rest) ∧ F a vs b rest := by
  intro s hs
  refine (hx s hs).bind fun a s' ⟨hp, hd⟩ => ?_
  refine (hf a s' hp.terminated).imp ?_ ?_
  · rintro b s'' ⟨hp', hd'⟩
    refine ⟨hp.trans hp', fun hc hl => ?_⟩
    obtain ⟨hc, hc'⟩ := hp.problems_eq hp' hc
    obtain ⟨us, hu, hD⟩ := hd hc hl
    have hm : s'.ahead.length ≤ m := by
      have := hn _ _ _ hD
      rw [hu, List.length_append] at hl
      omega
    obtain ⟨vs, hv, hF⟩ := hd' hc' hm
    exact ⟨us ++ vs, by rw [hu, hv, List.append_assoc], us, a, vs, rfl, hv ▸ hD, hF⟩
  · rintro e s'' ⟨hp', he⟩
    exact ⟨hp.trans hp', he.trans hp⟩

theorem Parses.bind (hx : Parses n x D) (hf : ∀ a, Parses n (f a) (F a)) :
    Parses n (x >>= f) fun ts b rest =>
      ∃ us a vs, ts = us ++ vs ∧ D us a (vs ++ rest) ∧ F a vs b rest :=
  hx.bindFew (fun _ _ _ _ => by omega) hf

theorem Parses.map (g : α → β) (hx : Parses n x D) :
    Parses n (g <$> x) fun ts b rest => ∃ a, b = g a ∧ D ts a rest := by
  intro s hs
  refine .map ((hx s hs).imp ?_ fun _ _ he => he)
  rintro a s' ⟨hp, hd⟩
  refine ⟨hp, fun hc hl => ?_⟩
  obtain ⟨ts, ht, hD⟩ := hd hc hl
  exact ⟨ts, ht, a, rfl, hD⟩

/-- A token that must be there. -/
theorem parses_expect (hk : kind ≠ .eof) (what : Expected) :
    Parses n (expect kind what) fun ts t _ => ts = [t] ∧ t.kind = kind := by
  intro s hs
  obtain ⟨t, rest, ht⟩ := hs.exists_cons
  by_cases he : t.kind = kind
  · refine .of_ok (expect_of_eq ht he what) ⟨progress_tail hs ht (he ▸ hk), fun _ _ => ?_⟩
    exact ⟨[t], ht, rfl, he⟩
  · refine .of_error ((expect_of_ne ht he what).trans (fail_eq ht what)) ?_
    exact ⟨.report hs _ _, by simp, by simp⟩

theorem parses_fail (what : Expected) : Parses n (fail what : Parse α) D := by
  intro s hs
  obtain ⟨t, rest, ht⟩ := hs.exists_cons
  exact .of_error (fail_eq ht what) ⟨.report hs _ _, by simp, by simp⟩

/-- A token that may be there, and what follows in either case. -/
theorem Parses.accept {f : Option Token → Parse β} {F : List Token → β → List Token → Prop}
    {G : Token → List Token → β → List Token → Prop} (hk : .eof ∉ kinds)
    (hnone : Parses n (f none) F) (hsome : ∀ t, t.kind ∈ kinds → Parses (n - 1) (f (some t)) (G t)) :
    Parses n (accept? kinds >>= f) fun ts b rest =>
      (F ts b rest ∧ ∀ t ∈ (ts ++ rest).head?, t.kind ∉ kinds) ∨
        ∃ t us, ts = t :: us ∧ t.kind ∈ kinds ∧ G t us b rest := by
  intro s hs
  obtain ⟨t, rest, ht⟩ := hs.exists_cons
  by_cases he : t.kind ∈ kinds
  · have hp := progress_tail hs ht fun h => hk (h ▸ he)
    refine .step (accept_of_mem ht he) ((hsome t he _ hp.terminated).imp ?_ ?_)
    · rintro b s'' ⟨hp', hd⟩
      refine ⟨hp.trans hp', fun hc hl => ?_⟩
      obtain ⟨us, hu, hG⟩ := hd hc (by rw [ht, List.length_cons] at hl; exact Nat.le_sub_one_of_lt hl)
      refine ⟨t :: us, ?_, .inr ⟨t, us, rfl, he, hG⟩⟩
      rw [ht, List.cons_append]
      exact congrArg _ hu
    · rintro e s'' ⟨hp', he⟩
      exact ⟨hp.trans hp', he.trans hp⟩
  · refine .step (accept_of_not_mem ht he) ((hnone _ hs).imp ?_ fun _ _ he => he)
    rintro b s'' ⟨hp, hd⟩
    refine ⟨hp, fun hc hl => ?_⟩
    obtain ⟨ts, hts, hF⟩ := hd hc hl
    refine ⟨ts, hts, .inl ⟨hF, ?_⟩⟩
    rw [← hts, ht]
    simpa using he

/-- A look at the token ahead, and what follows. -/
theorem Parses.peek {f : Token → Parse β} {F : Token → List Token → β → List Token → Prop}
    (hf : ∀ t, Parses n (f t) (F t)) :
    Parses n (Parser.peek >>= f) fun ts b rest =>
      ∃ t, (ts ++ rest).head? = some t ∧ F t ts b rest := by
  intro s hs
  obtain ⟨t, rest, ht⟩ := hs.exists_cons
  refine .step (peek_eq ht) ((hf _ _ hs).imp ?_ fun _ _ he => he)
  rintro b s'' ⟨hp, hd⟩
  refine ⟨hp, fun hc hl => ?_⟩
  obtain ⟨ts, hts, hF⟩ := hd hc hl
  refine ⟨ts, hts, _, ?_, hF⟩
  rw [← hts, ht]
  rfl

/-- A look whether a token is ahead, and what follows in either case. -/
theorem Parses.check {f : Bool → Parse β} {F G : List Token → β → List Token → Prop}
    (htrue : Parses n (f true) F) (hfalse : Parses n (f false) G) :
    Parses n (Parser.check kind >>= f) fun ts b rest =>
      (F ts b rest ∧ ∃ t, (ts ++ rest).head? = some t ∧ t.kind = kind) ∨ G ts b rest := by
  intro s hs
  obtain ⟨t, rest, ht⟩ := hs.exists_cons
  refine .step (check_eq ht) ?_
  by_cases he : t.kind = kind
  · rw [beq_iff_eq.2 he]
    refine (htrue _ hs).imp ?_ fun _ _ he => he
    rintro b s'' ⟨hp, hd⟩
    refine ⟨hp, fun hc hl => ?_⟩
    obtain ⟨ts, hts, hF⟩ := hd hc hl
    refine ⟨ts, hts, .inl ⟨hF, t, ?_, he⟩⟩
    rw [← hts, ht]
    rfl
  · rw [beq_eq_false_iff_ne.2 he]
    refine (hfalse _ hs).imp ?_ fun _ _ he => he
    rintro b s'' ⟨hp, hd⟩
    refine ⟨hp, fun hc hl => ?_⟩
    obtain ⟨ts, hts, hG⟩ := hd hc hl
    exact ⟨ts, hts, .inr hG⟩

/-- A run that reports something has read nothing in particular. -/
theorem Parses.report (t : Token) (problem : Problem) (hx : Parses n x D) :
    Parses n (Parser.report t problem >>= fun _ => x) fun _ _ _ => False := by
  intro s hs
  have hp := Progress.report hs t problem
  refine .step (report_eq problem) ((hx _ hp.terminated).imp ?_ ?_)
  · rintro b s'' ⟨hp', -⟩
    refine ⟨hp.trans hp', fun hc => ?_⟩
    obtain ⟨hc, -⟩ := hp.problems_eq hp' hc
    simpa using congrArg Array.size hc
  · rintro e s'' ⟨hp', he⟩
    exact ⟨hp.trans hp', he.trans hp⟩

/-- A report that depends on a condition. -/
theorem Parses.reportIf (c : Prop) [Decidable c] (problem : Problem) (hx : Parses n x D) :
    Parses n (do
      if c then
        let t ← Parser.peek
        Parser.report t problem
      x) fun ts a rest => ¬c ∧ D ts a rest := by
  split
  · refine (Parses.peek fun t => hx.report t problem).imp ?_
    rintro _ _ _ ⟨_, _, h⟩
    exact h.elim
  · next hc => exact hx.imp fun _ _ _ h => ⟨hc, h⟩

end Parses

/-! ## Loops -/

section Items

variable {ε σ : Type} [Input (EStateM ε σ)] {ends : List Token.Kind} {item : EStateM ε σ Tree}
  {fuel : Nat} {done : List Tree} {s : σ} {t : Token}
  (h : (Input.peek : EStateM ε σ Token) s = .ok t s)

include h

theorem itemsUntil_of_end (ht : ends.contains t.kind = true) :
    itemsUntil ends item (fuel + 1) done s = .ok done.reverse s := by
  rw [itemsUntil, bind_of_ok h, if_pos ht]
  rfl

theorem itemsUntil_of_token (ht : ¬ends.contains t.kind = true) :
    itemsUntil ends item (fuel + 1) done s =
      (item >>= fun tree => itemsUntil ends item fuel (tree :: done)) s := by
  rw [itemsUntil, bind_of_ok h, if_neg ht]

theorem programFrom_of_token (ht : t.kind ≠ .eof) :
    programFrom item (fuel + 1) done s =
      (item >>= fun tree => programFrom item fuel (tree :: done)) s :=
  itemsUntil_of_token h (by simpa using ht)

end Items

/-! ## Recovery -/

/-- The search for the next statement ends at the end of the program at the latest. -/
theorem terminated_boundary (last : Token.Kind) :
    ∀ {ts : List Token}, Terminated ts → Terminated (boundary last ts) ∧ boundary last ts <:+ ts
  | [], h => by
    obtain ⟨_, _, h⟩ := h.exists_cons
    cases h
  | t :: ts, h => by
    unfold boundary
    split
    · exact ⟨h, List.suffix_refl _⟩
    · next hc =>
      simp only [Bool.or_eq_true, not_or, beq_iff_eq] at hc
      obtain ⟨ht, hs⟩ := terminated_boundary t.kind (h.tail hc.1.1)
      exact ⟨ht, hs.trans (List.suffix_cons t ts)⟩

theorem synchronize_eq {rest : List Token} (hs : s.ahead = t :: rest) :
    synchronize s =
      if t.kind == .eof then .ok () s
      else match boundary t.kind s.ahead.tail with
        | [] => .error .outOfTokens { s with ahead := [] }
        | ahead => .ok () { s with ahead } := by
  unfold synchronize
  rw [bind_of_ok (peek_eq hs)]
  cases t.kind == Token.Kind.eof <;> rfl

/-- Synchronizing ends, and it only goes forward. -/
theorem synchronize_ok (h : Terminated s.ahead) :
    ∃ s', synchronize s = .ok () s' ∧ Progress s s' := by
  obtain ⟨t, rest, hs⟩ := h.exists_cons
  by_cases he : t.kind = .eof
  · refine ⟨s, ?_, .refl h⟩
    rw [synchronize_eq hs, if_pos (by simpa using he)]
  · obtain ⟨hb, hsuf⟩ := terminated_boundary t.kind ((hs ▸ h).tail he)
    obtain ⟨u, more, hu⟩ := hb.exists_cons
    rw [hu] at hb hsuf
    refine ⟨{ s with ahead := u :: more }, ?_, hb, hsuf.trans ?_, List.prefix_refl _, fun _ => .inl⟩
    · rw [synchronize_eq hs, if_neg (by simpa using he)]
      simp only [hs, List.tail_cons, hu]
    · rw [hs]
      exact List.suffix_cons t rest

section Rescue

variable {ε σ : Type} [DecidableEq ε] {why e : ε} {rest rule : EStateM ε σ α} {s s' : σ} {a : α}

theorem rescue_of_ok (h : rule s = .ok a s') : rescue why rest rule s = .ok a s' := by
  unfold rescue
  rw [h]

theorem rescue_of_stop (h : rule s = .error why s') : rescue why rest rule s = rest s' := by
  unfold rescue
  rw [h]
  exact if_pos rfl

theorem rescue_of_error (h : rule s = .error e s') (he : e ≠ why) :
    rescue why rest rule s = .error e s' := by
  unfold rescue
  rw [h]
  exact if_neg he

end Rescue

/-- A rule that only nesting that is too deep can stop. -/
structure Recovers (n : Nat) (x : Parse α) (D : List Token → α → List Token → Prop) : Prop where
  parses : Parses n x D
  tooDeep : ∀ {s}, Terminated s.ahead → ∀ {e s'}, x s = .error e s' → e = .tooDeep

theorem recovers_tooDeep {n : Nat} {D : List Token → α → List Token → Prop} :
    Recovers n (throw .tooDeep : Parse α) D where
  parses := parses_tooDeep
  tooDeep _ _ _ h := by
    cases h
    rfl

/-- A syntax problem is made up for, and where there is none nothing changes. -/
theorem Parses.recover {n : Nat} {x : Parse Tree} {D : List Token → Tree → List Token → Prop}
    (hx : Parses n x D) : Recovers n (Parser.recover x) D where
  parses s hs := by
    have hk := hx s hs
    cases hr : x s with
    | ok a s' => exact Ends.of_ok (rescue_of_ok hr) (hk.ok hr)
    | error e s' =>
      obtain ⟨hp, he⟩ := hk.error hr
      by_cases hwhy : e = .syntaxProblem
      · subst hwhy
        obtain ⟨s'', hs, hp'⟩ := synchronize_ok hp.terminated
        refine Ends.of_ok ((rescue_of_stop hr).trans (bind_of_ok hs)) ⟨hp.trans hp', fun hc => ?_⟩
        have hlt := he.reported rfl
        have hle := hp'.size_le
        rw [hc] at hle
        omega
      · exact Ends.of_error (rescue_of_error hr hwhy) ⟨hp, he⟩
  tooDeep {s} hs {e s'} he := by
    have hk := hx s hs
    cases hr : x s with
    | ok a s' => cases (rescue_of_ok hr).symm.trans he
    | error e' s'' =>
      obtain ⟨hp, hf⟩ := hk.error hr
      cases e' with
      | syntaxProblem =>
        obtain ⟨s'', hs, hp'⟩ := synchronize_ok hp.terminated
        cases ((rescue_of_stop hr).trans (bind_of_ok hs)).symm.trans he
      | tooDeep =>
        cases (rescue_of_error hr (by decide)).symm.trans he
        rfl
      | outOfTokens => exact absurd rfl hf.inside

end LoxLang.Parser
