import LoxLang.Proofs.Grammar.Forks

/-!
# Statements and recovery at a fork

Statements and declarations end in a semicolon or a brace, so a fork inside of one shows as a report
of the parser that has come to the end of the program. A declaration with a problem is skipped by
both parsers up to the same token. The whole program follows: from two ways that start alike both
parsers read the same (`Fork.programFrom_eq`), and a program without any report is read in the same
way whatever follows it (`Fork.programFrom_append`).
-/

namespace LoxLang.Parser.Fork

open Cursor (Read Halt)

variable {F : Fork} {n : Nat} {d : Prop}

/-! ## Statements -/

variable {exprStatement : Parse Tree} {varDeclaration' exprStatement' : Read Tree} {t : Token}
  {deep : Prop}

section Statements

variable {expression statement item : Parse Tree} {expression' statement' item' : Read Tree}
  {fuel fuel' : Nat}

theorem abreast_semicolon (what : Expected) :
    F.Abreast n (.closed False) (semicolon what) (semicolon what) :=
  .suits ((abreast_expect (by decide) _).bind fun _ => abreast_pure ()) (by simp)

theorem abreast_returnStatement (keyword : Token)
    (h : F.Abreast n (.unclosed d) expression expression') :
    F.Abreast n (.closed d) (returnStatement keyword expression)
      (returnStatement keyword expression') :=
  .suits (.check (by decide) ((abreast_semicolon _).bind fun _ => abreast_pure _)
    (h.bind fun _ => (abreast_semicolon _).bind fun _ => abreast_pure _)) (by simp)

theorem abreast_varDeclaration (h : F.Abreast n (.unclosed d) expression expression') :
    F.Abreast n (.closed d) (varDeclaration expression) (varDeclaration expression') :=
  .suits ((abreast_expect (by decide) _).bind fun _ => .accept (by decide) (by decide)
    ((abreast_semicolon _).bind fun _ => abreast_pure _) fun _ _ _ _ =>
      (h.mono (Nat.sub_le n 1)).bind fun _ => (abreast_semicolon _).bind fun _ => abreast_pure _)
    (by simp)

theorem abreast_ifStatement (h : F.Abreast n (.unclosed d) expression expression')
    (hs : F.Abreast n (.closed d) statement statement') :
    F.Abreast n (.closed d) (ifStatement expression statement)
      (ifStatement expression' statement') :=
  .suits ((abreast_expect (by decide) _).bind fun _ => h.bind fun _ =>
    (abreast_expect (by decide) _).bind fun _ => hs.bind fun _ =>
      .accept (by decide) (by decide) (abreast_pure _) fun _ _ _ _ =>
        (hs.mono (Nat.sub_le n 1)).bind fun _ => abreast_pure _)
    (by simp)

theorem abreast_whileStatement (h : F.Abreast n (.unclosed d) expression expression')
    (hs : F.Abreast n (.closed d) statement statement') :
    F.Abreast n (.closed d) (whileStatement expression statement)
      (whileStatement expression' statement') :=
  .suits ((abreast_expect (by decide) _).bind fun _ => h.bind fun _ =>
    (abreast_expect (by decide) _).bind fun _ => hs.bind fun _ => abreast_pure _) (by simp)

theorem abreast_forInitializer {varDeclaration : Parse Tree}
    (hv : F.Abreast n (.closed d) varDeclaration varDeclaration')
    (he : F.Abreast n (.closed d) exprStatement exprStatement') :
    F.Abreast n (.closed d) (forInitializer varDeclaration exprStatement)
      (forInitializer varDeclaration' exprStatement') := by
  refine .suits (.accept (S := ⟨False, True, False, d⟩) (by decide) (by decide) (he.map some)
    fun t _ _ _ => ?_) (by simp)
  dsimp only
  split
  · exact .suits (abreast_pure none) (by simp)
  · exact .suits ((hv.mono (Nat.sub_le n 1)).map some) (by simp)

theorem abreast_optionalBefore {kind : Token.Kind} (hk : kind ≠ .eof)
    (h : F.Abreast n (.unclosed d) expression expression') :
    F.Abreast n ⟨False, False, True, d⟩ (optionalBefore kind expression)
      (optionalBefore kind expression') :=
  .suits (.check hk (abreast_pure none) (h.map some)) (by simp)

/-- A `for` statement is read alike. -/
theorem abreast_forStatement {varDeclaration : Parse Tree}
    (hv : F.Abreast n (.closed d) varDeclaration varDeclaration')
    (he : F.Abreast n (.closed d) exprStatement exprStatement')
    (h : F.Abreast n (.unclosed d) expression expression')
    (hs : F.Abreast n (.closed d) statement statement') :
    F.Abreast n (.closed d) (forStatement varDeclaration exprStatement expression statement)
      (forStatement varDeclaration' exprStatement' expression' statement') :=
  .suits ((abreast_expect (by decide) _).bind fun _ => (abreast_forInitializer hv he).bind fun _ =>
    (abreast_optionalBefore (by decide) h).bind fun _ => (abreast_semicolon _).bind fun _ =>
      (abreast_optionalBefore (by decide) h).bind fun _ =>
        (abreast_expect (by decide) _).bind fun _ => hs.bind fun _ => abreast_pure _) (by simp)

/-- The first parser finds no more items at the end of the program. -/
theorem lapses_itemsFrom (fuel : Nat) (done : List Tree) {s : State} (hs : s.ahead = F.first) :
    F.Lapses False (itemsFrom item (fuel + 1) done) s := by
  obtain hnil | ⟨e, rest, he, hend⟩ := first_cases hs
  · exact lapses_outOfTokens hs (bind_of_error (peek_of_nil hnil))
  · exact Ends.of_ok (itemsUntil_of_end (peek_eq he) (by simp [hend]))
      ⟨hs, Nat.le_refl _, False.elim⟩

/-- Items up to a closing brace or the end of the program. Each item takes a token. -/
theorem abreast_itemsFrom (h : F.AbreastInside n (.closed d) item item') :
    ∀ {m fuel fuel' : Nat} (done : List Tree), m ≤ n → m < fuel → m < fuel' →
      F.Abreast m (.optional d) (itemsFrom item fuel done) (itemsFrom item' fuel' done)
  | m, fuel + 1, fuel' + 1, done, hm, hf, hf' => by
    refine ⟨fun {a s c} hlen hs => ?_, fun s hs => lapses_itemsFrom fuel done hs⟩
    have hstop (hx : itemsFrom item (fuel + 1) done s = .ok done.reverse s)
        (hy : itemsFrom item' (fuel' + 1) done c = .ok done.reverse c) :
        F.Meets (.optional d) a (itemsFrom item (fuel + 1) done)
          (itemsFrom item' (fuel' + 1) done) s c :=
      .inl ⟨_, a, s, c, hx, hy, hs.onward, False.elim⟩
    cases hs.sight with
    | @token t rest hin hend ha hl =>
      by_cases hbrace : t.kind = .rightBrace
      · exact hstop (itemsUntil_of_end (peek_eq ha) (by simp [hbrace]))
          (itemsUntil_of_end (Cursor.peek_eq hl) (by simp [hbrace]))
      · have hpos : 0 < a.length := by simp [hin]
        have hmore (tree : Tree) : F.Abreast (m - 1) (.optional d)
            (itemsFrom item fuel (tree :: done)) (itemsFrom item' fuel' (tree :: done)) :=
          abreast_itemsFrom h _ (by omega) (by omega) (by omega)
        refine ((h.meets (List.length_pos_iff.1 hpos) (by omega) hs).bind (fun a' _ hlt => ?_)
          hmore).after hs.onward (itemsUntil_of_token (peek_eq ha) (by simp [hbrace, hend]))
          (itemsUntil_of_token (Cursor.peek_eq hl) (by simp [hbrace, hend])) ?_ ?_ ?_
        · have := hlt trivial
          omega
        all_goals simp
    | finish _ he ha hl =>
      exact hstop (itemsUntil_of_end (peek_eq ha) (by simp [he]))
        (itemsUntil_of_end (Cursor.peek_eq hl) (by simp [he]))
    | nothing hf ha hl =>
      exact meets_outOfTokens hs hf (bind_of_error (peek_of_nil ha))
        (bind_of_error (Cursor.peek_of_none hl))
    | parted hdiffer ha _ => exact .inr (.inr ⟨hdiffer, lapses_itemsFrom fuel done ha⟩)

theorem abreast_blockItems (hf : n < fuel) (hf' : n < fuel')
    (h : F.AbreastInside n (.closed d) item item') :
    F.Abreast n (.closed d) (blockItems fuel item) (blockItems fuel' item') :=
  .suits ((abreast_itemsFrom h [] (Nat.le_refl n) hf hf').bind fun _ =>
    (abreast_expect (by decide) _).bind fun _ => abreast_pure _) (by simp)

theorem abreast_parameter : F.Abreast n (.unclosed False) parameter parameter :=
  .suits ((abreast_expect (by decide) _).bind fun _ => abreast_pure _) (by simp)

theorem abreast_routine (hf : n < fuel) (hf' : n < fuel') {block : Parse (List Tree)}
    {block' : Read (List Tree)} (h : F.Abreast n (.closed d) block block') (kind : Routine) :
    F.Abreast n (.closed d) (routine fuel block kind) (routine fuel' block' kind) :=
  .suits ((abreast_expect (by decide) _).bind fun _ => (abreast_expect (by decide) _).bind fun _ =>
    (abreast_listed (by simp) abreast_parameter hf hf').bind fun _ =>
      (abreast_expect (by decide) _).bind fun _ => (abreast_expect (by decide) _).bind fun _ =>
        h.bind fun _ => abreast_pure _) (by simp)

theorem abreast_superclass : F.Abreast n (.optional False) superclass superclass :=
  .suits (.accept (by decide) (by decide) (abreast_pure _) fun _ _ _ _ =>
    (abreast_expect (by decide) _).bind fun _ => abreast_pure _) (by simp)

theorem abreast_classDeclaration (hf : n < fuel) (hf' : n < fuel') {method : Parse Tree}
    {method' : Read Tree} (h : F.Abreast n (.closed d) method method') :
    F.Abreast n (.closed d) (classDeclaration fuel method)
      (classDeclaration fuel' method') :=
  .suits ((abreast_expect (by decide) _).bind fun _ => abreast_superclass.bind fun _ =>
    (abreast_expect (by decide) _).bind fun _ =>
      (abreast_itemsFrom h.inside [] (Nat.le_refl n) hf hf').bind fun _ =>
        (abreast_expect (by decide) _).bind fun _ => abreast_pure _) (by simp)

end Statements

/-! ## Recovery -/

section Recovery

variable {a : List Token} {s : State} {c : Cursor.State} {last : Token.Kind} {s' : State}

/-- The token before the ones that are ahead. -/
theorem Beside.previous {last : Token} {before : List Token} (hs : F.Beside a s c)
    (hbody : F.body = before ++ last :: a) : Cursor.previous c = .ok last c := by
  have hp : c.position = before.length + 1 := by
    have := hs.position
    simp [hbody] at this
    omega
  unfold Cursor.previous
  rw [hp]
  simp [hs.tokens, hbody]

/-- Go on at the next likely start of a statement, after a token of kind `last`. -/
def settle (last : Token.Kind) : Parse Unit := fun s =>
  match boundary last s.ahead with
  | [] => .error .outOfTokens { s with ahead := [] }
  | ahead => .ok () { s with ahead }

/-- How the parser settles on the next statement. -/
theorem settle_eq {rest : List Token} (hs : s.ahead = t :: rest) :
    settle last s = if t.kind == .eof || last == .semicolon || startsStatement t.kind then .ok () s
      else settle t.kind { s with ahead := rest } := by
  obtain ⟨ahead, problems⟩ := s
  obtain rfl : ahead = t :: rest := hs
  unfold settle
  dsimp only
  rw [boundary]
  cases t.kind == .eof || last == .semicolon || startsStatement t.kind with
  | true => rfl
  | false => rfl

theorem settle_of_nil (hs : s.ahead = []) : settle last s = .error .outOfTokens s := by
  obtain ⟨ahead, problems⟩ := s
  obtain rfl : ahead = [] := hs
  rfl

theorem synchronize_of_token {rest : List Token} (hs : s.ahead = t :: rest) (ht : t.kind ≠ .eof) :
    synchronize s = settle t.kind { s with ahead := rest } := by
  rw [synchronize_eq hs, if_neg (by simpa using ht), hs]
  rfl

theorem lapses_settle (hs : s.ahead = F.first) : F.Lapses False (settle last) s := by
  obtain hnil | ⟨e, rest, he, hend⟩ := first_cases hs
  · exact lapses_outOfTokens hs (settle_of_nil hnil)
  · have hstop : settle last s = .ok () s := by
      rw [settle_eq he, if_pos (by simp [hend])]
    exact Ends.of_ok hstop ⟨hs, Nat.le_refl _, False.elim⟩

/-- Both parsers go on from token to token in search of a statement. -/
theorem meets_settle : ∀ {a before : List Token} {last : Token} {s : State} {c : Cursor.State}
    {fuel : Nat}, F.Beside a s c → F.body = before ++ last :: a → a.length < fuel →
      F.Meets ⟨False, False, False, False⟩ a (settle last.kind) (Cursor.skip fuel) s c
  | a, before, last, s, c, fuel + 1, hs, hbody, hf => by
    cases hs.sight with
    | @token t rest hin hend ha hl =>
      subst hin
      have hcursor : Cursor.skip (fuel + 1) c =
          if last.kind == .semicolon || startsStatement t.kind then .ok () c
          else Cursor.skip fuel c.next := by
        rw [Cursor.skip, bind_of_ok (Cursor.atEnd_eq hl), if_neg (by simpa using hend),
          bind_of_ok (hs.previous hbody), bind_of_ok (Cursor.peek_eq hl)]
        cases last.kind == .semicolon || startsStatement t.kind with
        | true => rfl
        | false => exact bind_of_ok (Cursor.advance_eq hl hend)
      have hlist : settle last.kind s = _ := settle_eq ha
      rw [beq_eq_false_iff_ne.2 hend, Bool.false_or] at hlist
      cases hstart : last.kind == .semicolon || startsStatement t.kind with
      | true =>
        rw [hstart] at hcursor hlist
        exact .inl ⟨(), _, s, c, hlist, hcursor, hs.onward, False.elim⟩
      | false =>
        rw [hstart] at hcursor hlist
        have hmore : F.Meets ⟨False, False, False, False⟩ rest (settle t.kind) (Cursor.skip fuel)
            { s with ahead := rest ++ F.first } c.next :=
          meets_settle hs.next (by rw [hbody, List.append_cons]) (by simpa using hf)
        exact hmore.after hs.onward_next hlist hcursor .inl .inl id
    | finish _ he ha hl =>
      have hcursor : Cursor.skip (fuel + 1) c = .ok () c := by
        unfold Cursor.skip
        rw [bind_of_ok (Cursor.atEnd_eq hl), if_pos (by simp [he])]
        rfl
      have hlist : settle last.kind s = .ok () s := by
        rw [settle_eq ha, if_pos (by simp [he])]
      exact .inl ⟨(), a, s, c, hlist, hcursor, hs.onward, False.elim⟩
    | nothing hf ha hl =>
      exact meets_outOfTokens hs hf (settle_of_nil ha) (bind_of_error (Cursor.atEnd_of_none hl))
    | parted hdiffer ha _ => exact .inr (.inr ⟨hdiffer, lapses_settle ha⟩)

theorem lapses_synchronize (hs : s.ahead = F.first) : F.Lapses False synchronize s := by
  obtain hnil | ⟨e, rest, he, hend⟩ := first_cases hs
  · exact lapses_outOfTokens hs (bind_of_error (peek_of_nil hnil))
  · have hstop : synchronize s = .ok () s := by
      rw [synchronize_eq he, if_pos (by simp [hend])]
    exact Ends.of_ok hstop ⟨hs, Nat.le_refl _, False.elim⟩

/-- Both parsers go past the token ahead, if it is before the fork, and on to the next statement. The
parser over positions looks at the token before it, so there has to be one. -/
theorem meets_synchronize (fuel : Nat) (hbody : F.body ≠ []) (hf : a.length < fuel)
    (hs : F.Beside a s c) :
    F.Meets ⟨a ≠ [], False, False, False⟩ a synchronize (Cursor.synchronize fuel) s c := by
  cases hs.sight with
  | @token t rest hin hend ha hl =>
    subst hin
    obtain ⟨before, hb⟩ := hs.suffix
    have hcursor : Cursor.synchronize fuel c = Cursor.skip fuel c.next :=
      bind_of_ok (Cursor.advance_eq hl hend)
    refine (meets_settle hs.next hb.symm ?_).after hs.onward_next (synchronize_of_token ha hend)
      hcursor (fun _ => .inr (by simp)) .inl id
    simp at hf
    omega
  | finish hout he ha hl =>
    subst hout
    obtain ⟨before, last, hb⟩ := (List.eq_nil_or_concat F.body).resolve_left hbody
    obtain ⟨fuel, rfl⟩ : ∃ k, fuel = k + 1 := ⟨fuel - 1, by omega⟩
    have hadvance : Cursor.advance c = .ok last c := by
      unfold Cursor.advance
      rw [bind_of_ok (Cursor.atEnd_eq hl), if_pos (by simp [he])]
      exact hs.previous (by rw [hb, List.concat_eq_append])
    have hcursor : Cursor.synchronize (fuel + 1) c = .ok () c := by
      unfold Cursor.synchronize Cursor.skip
      rw [bind_of_ok hadvance, bind_of_ok (Cursor.atEnd_eq hl), if_pos (by simp [he])]
      rfl
    have hlist : synchronize s = .ok () s := by
      rw [synchronize_eq ha, if_pos (by simp [he])]
    exact .inl ⟨(), [], s, c, hlist, hcursor, hs.onward, absurd rfl⟩
  | nothing hf ha hl =>
    exact meets_outOfTokens hs hf (bind_of_error (peek_of_nil ha))
      (bind_of_error (bind_of_error (Cursor.atEnd_of_none hl)))
  | parted hdiffer ha _ => exact .inr (.inr ⟨hdiffer, lapses_synchronize ha⟩)

theorem stops_peek (s : State) : Ends peek s (fun _ _ => True) fun e _ => e = .outOfTokens := by
  unfold Ends peek
  cases s.ahead with
  | nil => rfl
  | cons t rest => trivial

/-- Only a lack of tokens stops the search. -/
theorem stops_null (s : State) : Ends (synchronize >>= fun _ => pure Tree.null) s
    (fun _ _ => True) fun e _ => e = .outOfTokens := by
  have hsynchronize : Ends synchronize s (fun _ _ => True) fun e _ => e = .outOfTokens := by
    cases ha : s.ahead with
    | nil => exact .of_error (bind_of_error (peek_of_nil ha)) rfl
    | cons t rest =>
      unfold Ends
      rw [synchronize_eq ha]
      cases t.kind == .eof with
      | true => trivial
      | false =>
        cases boundary t.kind s.ahead.tail with
        | nil => rfl
        | cons u more => trivial
  exact hsynchronize.bind fun _ _ _ => .pure trivial

/-- A null statement after the search for the next one. -/
theorem meets_null (fuel : Nat) (hbody : F.body ≠ []) (hf : a.length < fuel) (hs : F.Beside a s c) :
    F.Meets ⟨a ≠ [], False, False, False⟩ a (synchronize >>= fun _ => pure Tree.null)
      (Cursor.synchronize fuel >>= fun _ => pure Tree.null) s c :=
  ((meets_synchronize fuel hbody hf hs).bind (fun _ h _ => h) fun _ => abreast_pure Tree.null).suits
    (by simp)

theorem lapses_null (hs : s.ahead = F.first) :
    F.Lapses False (synchronize >>= fun _ => pure Tree.null) s :=
  ((lapses_synchronize hs).bind fun _ s' h =>
    (abreast_pure (n := 0) Tree.null).lapses s' h).imp False.elim

variable {x : Parse Tree} {y : Read Tree}

/-- A rule that is gone on with after a stop lapses, if what goes on does. -/
theorem Lapses.rescue {why : Interrupt} {x z : Parse Tree} {P Q : Prop} (h : F.Lapses P x s)
    (hz : ∀ s', s'.ahead = F.first → F.Lapses Q z s') (hP : P → Q ∨ why = .syntaxProblem) :
    F.Lapses P (rescue why z x) s := by
  cases hx : x s with
  | ok t s' =>
    have hok := Ends.ok h hx
    exact Ends.of_ok (rescue_of_ok hx) hok
  | error e s' =>
    obtain ⟨ha, hs, he⟩ := Ends.error h hx
    by_cases hwhy : e = why
    · subst hwhy
      exact (hz s' ha).after (rescue_of_stop hx) hs fun hp => (hP hp).imp_right he
    · exact Ends.of_error (rescue_of_error hx hwhy) ⟨ha, hs, he⟩

/-- A fork inside of a declaration shows as a report, also if the declaration is given up. -/
theorem Lapses.recover {P : Prop} (h : F.Lapses P x s) : F.Lapses P (recover x) s :=
  h.rescue (fun _ => lapses_null) fun _ => .inr rfl

/-- Both parsers give up the same declarations. -/
theorem Abreast.recover {fuel : Nat} (h : F.Abreast n (.closed d) x y) (hf : n < fuel) :
    F.AbreastInside n (.closed d) (Parser.recover x) (Cursor.recover fuel y) where
  meets {a s c} hinside hlen hs := by
    obtain ⟨t, a', s', c', hr, hr', ho, htakes⟩ |
      ⟨e, a', s', c', hr, hr', ho, hdeep, hout, hparse⟩ | ⟨hne, hl⟩ := h.meets hlen hs
    · exact .inl ⟨t, a', s', c', rescue_of_ok hr, rescue_of_ok hr', ho, htakes⟩
    · by_cases he : e = .syntaxProblem
      · subst he
        have hlength := ho.suffix.length_le
        have hbody : F.body ≠ [] := fun hnil => hinside (List.suffix_nil.1 (hnil ▸ hs.suffix))
        have hnull := meets_null fuel hbody (by omega) ho.beside
        refine hnull.after ho (rescue_of_stop hr) (rescue_of_stop hr') (fun _ => ?_)
          (fun _ => .inr (hparse rfl)) False.elim
        by_cases hnil : a' = []
        · exact .inr (by simpa [hnil] using List.length_pos_iff.2 hinside)
        · exact .inl hnil
      · exact .inr (.inl ⟨e, a', s', c', rescue_of_error hr he,
          rescue_of_error hr' (fun h => he (Halt.stopped.inj h)), ho, hdeep, hout, hparse⟩)
    · exact .inr (.inr ⟨hne, hl.recover⟩)
  lapses s hs := (h.lapses s hs).recover

end Recovery

/-! ## Rules -/

section Rules

variable {fuel fuel' : Nat} {room room' : Nat}

theorem abreast_valueRule (form : Tree → Tree) (hf : n < fuel) (hf' : n < fuel')
    (hr : Roomy 16 n room room') :
    F.Abreast n (.closed (room < 20 * n + 16)) (valueRule form fuel room)
      (valueRule form fuel' room') :=
  hr.rule (by decide) rfl rfl fun _ _ _ hr => .suits ((abreast_expression hf hf' hr).bind fun _ =>
    (abreast_semicolon _).bind fun _ => abreast_pure _) (by simp)

theorem abreast_returnRule (hf : n < fuel) (hf' : n < fuel') (keyword : Token)
    (hr : Roomy 16 n room room') :
    F.Abreast n (.closed (room < 20 * n + 16)) (returnRule fuel keyword room)
      (returnRule fuel' keyword room') :=
  hr.rule (by decide) rfl rfl fun _ _ _ hr =>
    abreast_returnStatement keyword (abreast_expression hf hf' hr)

theorem abreast_varRule (hf : n < fuel) (hf' : n < fuel') (hr : Roomy 16 n room room') :
    F.Abreast n (.closed (room < 20 * n + 16)) (varRule fuel room)
      (varRule fuel' room') :=
  hr.rule (by decide) rfl rfl fun _ _ _ hr =>
    abreast_varDeclaration (abreast_expression hf hf' hr)

/-- A statement that its first token tells from the others, or one that is an expression. -/
theorem abreast_statement_succ (hexpr : F.Abreast n (.closed deep) (valueRule .exprStmt fuel room)
      (valueRule .exprStmt fuel' room'))
    (hfor : 0 < n → F.Abreast (n - 1) (.closed deep) (forRule fuel room)
      (forRule fuel' room'))
    (hif : 0 < n → F.Abreast (n - 1) (.closed deep) (ifRule fuel room) (ifRule fuel' room'))
    (hprint : 0 < n → F.Abreast (n - 1) (.closed deep) (valueRule .printStmt fuel room)
      (valueRule .printStmt fuel' room'))
    (hreturn : ∀ t, 0 < n → F.Abreast (n - 1) (.closed deep) (returnRule fuel t room)
      (returnRule fuel' t room'))
    (hwhile : 0 < n → F.Abreast (n - 1) (.closed deep) (whileRule fuel room)
      (whileRule fuel' room'))
    (hblock : 0 < n → F.Abreast (n - 1) (.closed deep) (blockRule fuel room)
      (blockRule fuel' room')) :
    F.Abreast n (.closed deep) (Parser.statement fuel (room + 1))
      (Parser.statement fuel' (room' + 1)) := by
  unfold Parser.statement
  refine .suits (.accept (S := .closed deep) (by decide) (by decide) hexpr fun t _ _ hpos => ?_)
    (by simp)
  dsimp only
  split_ifs
  · exact hfor hpos
  · exact hif hpos
  · exact hprint hpos
  · exact hreturn t hpos
  · exact hwhile hpos
  · exact .suits ((hblock hpos).bind fun _ => abreast_pure _) (by simp)

/-- A declaration that its first token tells from the others, or one that is a statement. -/
theorem abreast_declaration_succ (hf' : n < fuel')
    (hstatement : F.Abreast n (.closed deep) (Parser.statement fuel room)
      (Parser.statement fuel' room'))
    (hclass : 0 < n → F.Abreast (n - 1) (.closed deep) (classRule fuel room)
      (classRule fuel' room'))
    (hroutine : 0 < n → F.Abreast (n - 1) (.closed deep) (routineRule fuel .function room)
      (routineRule fuel' .function room'))
    (hvar : 0 < n → F.Abreast (n - 1) (.closed deep) (varRule fuel room)
      (varRule fuel' room')) :
    F.AbreastInside n (.closed deep) (declaration fuel (room + 1))
      (Parser.declaration fuel' (room' + 1)) := by
  unfold declaration
  refine Abreast.recover (.suits (.accept (S := .closed deep) (by decide) (by decide) hstatement
    fun t _ _ hpos => ?_) (by simp)) hf'
  dsimp only
  split_ifs
  · exact hclass hpos
  · exact hroutine hpos
  · exact hvar hpos

/-- The rules that call each other, each with less room than the rule that calls it. -/
theorem abreast_rules (room : Nat) : ∀ n room', n < fuel → n < fuel' →
    (Roomy 18 n room room' → F.Abreast n (.closed (room < 20 * n + 18)) (forRule fuel room)
      (forRule fuel' room')) ∧
    (Roomy 18 n room room' → F.Abreast n (.closed (room < 20 * n + 18)) (ifRule fuel room)
      (ifRule fuel' room')) ∧
    (Roomy 18 n room room' → F.Abreast n (.closed (room < 20 * n + 18)) (whileRule fuel room)
      (whileRule fuel' room')) ∧
    (Roomy 19 n room room' → F.Abreast n (.closed (room < 20 * n + 19)) (blockRule fuel room)
      (blockRule fuel' room')) ∧
    (Roomy 17 n room room' → F.Abreast n (.closed (room < 20 * n + 17)) (Parser.statement fuel room)
      (Parser.statement fuel' room')) ∧
    (∀ kind, Roomy 20 n room room' → F.Abreast n (.closed (room < 20 * n + 20))
      (routineRule fuel kind room) (routineRule fuel' kind room')) ∧
    (Roomy 21 n room room' → F.Abreast n (.closed (room < 20 * n + 21)) (classRule fuel room)
      (classRule fuel' room')) ∧
    (Roomy 18 n room room' → F.AbreastInside n (.closed (room < 20 * n + 18))
      (declaration fuel room) (Parser.declaration fuel' room')) := by
  induction room using Nat.strongRecOn with
  | _ room ih =>
  intro n room' hf hf'
  refine ⟨fun hr => ?_, fun hr => ?_, fun hr => ?_, fun hr => ?_, fun hr => ?_, fun kind hr => ?_,
    fun hr => ?_, fun hr => ?_⟩
  · refine hr.rule (by decide) (by unfold forRule; rfl) (by unfold forRule; rfl)
      fun inner inner' hroom hr => ?_
    obtain ⟨-, -, -, -, hstatement, -, -, -⟩ := ih inner (by omega) n inner' hf hf'
    unfold forRule
    exact abreast_forStatement ((abreast_varRule hf hf' (hr.mono (by omega))).deeper (by omega))
      ((abreast_valueRule _ hf hf' (hr.mono (by omega))).deeper (by omega))
      ((abreast_expression hf hf' (hr.mono (by omega))).deeper (by omega)) (hstatement hr)
  · refine hr.rule (by decide) (by unfold ifRule; rfl) (by unfold ifRule; rfl)
      fun inner inner' hroom hr => ?_
    obtain ⟨-, -, -, -, hstatement, -, -, -⟩ := ih inner (by omega) n inner' hf hf'
    unfold ifRule
    exact abreast_ifStatement ((abreast_expression hf hf' (hr.mono (by omega))).deeper (by omega))
      (hstatement hr)
  · refine hr.rule (by decide) (by unfold whileRule; rfl) (by unfold whileRule; rfl)
      fun inner inner' hroom hr => ?_
    obtain ⟨-, -, -, -, hstatement, -, -, -⟩ := ih inner (by omega) n inner' hf hf'
    unfold whileRule
    exact abreast_whileStatement
      ((abreast_expression hf hf' (hr.mono (by omega))).deeper (by omega)) (hstatement hr)
  · refine hr.rule (by decide) (by unfold blockRule; rfl) (by unfold blockRule; rfl)
      fun inner inner' hroom hr => ?_
    unfold blockRule
    exact abreast_blockItems hf hf' ((ih inner (by omega) n inner' hf hf').2.2.2.2.2.2.2 hr)
  · refine hr.rule (by decide) (by unfold Parser.statement; rfl) (by unfold Parser.statement; rfl)
      fun inner inner' hroom hr => ?_
    have hfewer (hpos : 0 < n) : n - 1 < fuel ∧ n - 1 < fuel' := by omega
    have hrules (hpos : 0 < n) := ih inner (by omega) (n - 1) inner' (hfewer hpos).1 (hfewer hpos).2
    refine abreast_statement_succ (abreast_valueRule _ hf hf' hr) (fun hpos => ?_) (fun hpos => ?_)
      (fun hpos => ?_) (fun t hpos => ?_) (fun hpos => ?_) (fun hpos => ?_)
    · exact ((hrules hpos).1 (hr.mono (by omega))).deeper (by omega)
    · exact ((hrules hpos).2.1 (hr.mono (by omega))).deeper (by omega)
    · obtain ⟨hf, hf'⟩ := hfewer hpos
      exact (abreast_valueRule _ hf hf' (hr.mono (by omega))).deeper (by omega)
    · obtain ⟨hf, hf'⟩ := hfewer hpos
      exact (abreast_returnRule hf hf' t (hr.mono (by omega))).deeper (by omega)
    · exact ((hrules hpos).2.2.1 (hr.mono (by omega))).deeper (by omega)
    · exact ((hrules hpos).2.2.2.1 (hr.mono (by omega))).deeper (by omega)
  · refine hr.rule (by decide) (by unfold routineRule; rfl) (by unfold routineRule; rfl)
      fun inner inner' hroom hr => ?_
    unfold routineRule
    exact abreast_routine hf hf' ((ih inner (by omega) n inner' hf hf').2.2.2.1 hr) kind
  · refine hr.rule (by decide) (by unfold classRule; rfl) (by unfold classRule; rfl)
      fun inner inner' hroom hr => ?_
    unfold classRule
    exact abreast_classDeclaration hf hf'
      ((ih inner (by omega) n inner' hf hf').2.2.2.2.2.1 .method hr)
  · obtain ⟨rfl, rfl⟩ | ⟨inner, inner', rfl, rfl, hinner⟩ := hr.split (by decide)
    · unfold declaration
      exact (abreast_tooDeep.suits (by simp)).inside
    · have hrules (hpos : 0 < n) := ih inner (by omega) (n - 1) inner' (by omega) (by omega)
      refine abreast_declaration_succ hf' ?_ (fun hpos => ?_) (fun hpos => ?_) (fun hpos => ?_)
      · exact ((ih inner (by omega) n inner' hf hf').2.2.2.2.1 hinner).deeper (by omega)
      · exact ((hrules hpos).2.2.2.2.2.2.1 (hinner.mono (by omega))).deeper (by omega)
      · exact ((hrules hpos).2.2.2.2.2.1 .function (hinner.mono (by omega))).deeper (by omega)
      · exact (abreast_varRule (by omega) (by omega) (hinner.mono (by omega))).deeper (by omega)

theorem abreast_declaration (hf : n < fuel) (hf' : n < fuel') (hr : Roomy 18 n room room') :
    F.AbreastInside n (.closed (room < 20 * n + 18))
      (declaration fuel room) (Parser.declaration fuel' room') :=
  (abreast_rules room n room' hf hf').2.2.2.2.2.2.2 hr

end Rules

/-! ## Programs -/

section Programs

variable {a : List Token} {s : State} {c : Cursor.State} {x : Parse Tree} {y : Read Tree}
  {s' : State} {fuel : Nat} {done : List Tree} {rest : List Token}

/-- The two rules read statements of a program side by side. Only a lack of tokens stops them. -/
def AbreastAtTop (F : Fork) (n : Nat) (deep : Prop) (x : Parse Tree) (y : Read Tree) : Prop :=
  ∀ {a s c}, a ≠ [] → a.length ≤ n → F.Beside a s c →
    (∃ t a' s' c', x s = .ok t s' ∧ y c = .ok t c' ∧ F.Onward deep a a' s s' c' ∧
      a'.length < a.length) ∨
    (F.first = [] ∧ ∃ s' c', x s = .error .outOfTokens s' ∧
      y c = .error (.stopped .outOfTokens) c') ∨
    (F.first.head? ≠ F.second.head? ∧ F.Lapses True x s)

/-- A null statement after a report about depth, at the end of the program. -/
theorem lapses_tooDeep (hs : s.ahead = F.first) :
    F.Lapses True giveUp s := by
  obtain hnil | ⟨e, rest, he, -⟩ := first_cases hs
  · exact lapses_outOfTokens hs (bind_of_error (peek_of_nil hnil))
  · exact (lapses_null (s := { s with problems := s.problems.push (.ofToken e .tooDeep) }) hs).after
      (bind_of_ok (peek_eq he)) (by simp) fun _ => .inr (by simp)

theorem stops_tooDeep (s : State) :
    Ends giveUp s (fun _ _ => True) fun e _ => e = .outOfTokens :=
  (stops_peek s).bind fun t _ _ => Ends.bind (x := report t .tooDeep) (P := fun _ _ => True) trivial
    fun _ s' _ => stops_null s'

/-- Both parsers give up the same statements for their depth. -/
theorem meets_tooDeep (fuel : Nat) (hd : d) (hbody : F.body ≠ []) (hf : a.length < fuel)
    (hs : F.Beside a s c) :
    F.Meets ⟨a ≠ [], True, False, d⟩ a giveUp (Cursor.giveUp fuel) s c := by
  have hlook {t : Token} {rest : List Token} (ha : s.ahead = t :: rest)
      (hl : c.tokens[c.position]? = some t) :
      F.Meets ⟨a ≠ [], True, False, d⟩ a giveUp (Cursor.giveUp fuel) s c :=
    have ho := hs.report (t := t) (hs.mem (by simp [ha])) fun _ => hd
    (meets_null fuel hbody hf ho.beside).after ho (bind_of_ok (peek_eq ha))
      (bind_of_ok (Cursor.peek_eq hl)) .inl (fun _ => .inr (by simp)) False.elim
  cases hs.sight with
  | token _ _ ha hl | finish _ _ ha hl => exact hlook ha hl
  | nothing hf ha hl =>
    exact meets_outOfTokens hs hf (bind_of_error (peek_of_nil ha))
      (bind_of_error (Cursor.peek_of_none hl))
  | parted hdiffer ha _ => exact .inr (.inr ⟨hdiffer, lapses_tooDeep ha⟩)

/-- A declaration never stops with a syntax problem. -/
theorem recover_ne_syntaxProblem (s s' : State) : recover x s ≠ .error .syntaxProblem s' := by
  intro h
  cases hx : x s with
  | ok t s₁ => cases (rescue_of_ok hx).symm.trans h
  | error e s₁ =>
    by_cases he : e = .syntaxProblem
    · subst he
      cases (stops_null s₁).error ((rescue_of_stop hx).symm.trans h)
    · cases (rescue_of_error hx he).symm.trans h
      exact he rfl

/-- Two rules that recover from depth go on side by side at the top. -/
theorem AbreastInside.atTop (h : F.AbreastInside n (.closed d) x y)
    (hx : ∀ s s', x s ≠ .error .syntaxProblem s') (hf : n < fuel) :
    F.AbreastAtTop n d (recoverDepth x) (Cursor.recoverDepth fuel y) := by
  intro a s c hinside hlen hs
  obtain ⟨t, a', s', c', hr, hr', ho, htakes⟩ |
    ⟨e, a', s', c', hr, hr', ho, hdeep, hout, -⟩ | ⟨hne, hl⟩ := h.meets hinside hlen hs
  · exact .inl ⟨t, a', s', c', rescue_of_ok hr, rescue_of_ok hr', ho, htakes trivial⟩
  · cases e with
    | syntaxProblem => exact absurd hr (hx s s')
    | outOfTokens =>
      exact .inr (.inl ⟨hout rfl, s', c', rescue_of_error hr (by decide),
        rescue_of_error hr' (by decide)⟩)
    | tooDeep =>
      have hlength := ho.suffix.length_le
      have hpos := List.length_pos_iff.2 hinside
      have hbody : F.body ≠ [] := fun hnil => hinside (List.suffix_nil.1 (hnil ▸ hs.suffix))
      have hlist : recoverDepth x s = giveUp s' := rescue_of_stop hr
      have hcursor : Cursor.recoverDepth fuel y c = Cursor.giveUp fuel c' := rescue_of_stop hr'
      obtain ⟨t, a'', s'', c'', hr, hr', ho', htakes⟩ |
        ⟨e, a'', s'', c'', hr, hr', -, -, hout, -⟩ | ⟨hne, hl⟩ :=
        meets_tooDeep fuel (hdeep rfl) hbody (by omega) ho.beside
      · refine .inl ⟨t, a'', s'', c'', hlist.trans hr, hcursor.trans hr', ho.trans ho', ?_⟩
        by_cases hnil : a' = []
        · have hsuffix := ho'.suffix
          rw [hnil, List.suffix_nil] at hsuffix
          rw [hsuffix]
          exact hpos
        · have := htakes hnil
          omega
      · obtain rfl := (stops_tooDeep s').error hr
        exact .inr (.inl ⟨hout rfl, s'', c'', hlist.trans hr, hcursor.trans hr'⟩)
      · exact .inr (.inr ⟨hne, hl.after hlist ho.grows .inl⟩)
  · exact .inr (.inr ⟨hne, (hl.imp fun _ => trivial).rescue (fun _ => lapses_tooDeep) .inl⟩)

theorem programFrom_of_eof {e : Token} (ha : s.ahead = e :: rest) (he : e.kind = .eof) :
    programFrom x fuel done s = .ok done.reverse s := by
  cases fuel with
  | zero => rfl
  | succ fuel => exact itemsUntil_of_end (peek_eq ha) (by simpa using he)

/-- If the two ways start alike, both parsers read the same statements up to the end of the program,
or there is no end to be found. -/
theorem programFrom_eq (hsame : F.first.head? = F.second.head?) (h : F.AbreastAtTop n d x y) :
    ∀ (fuel fuel' : Nat) {a : List Token} {s : State} {c : Cursor.State} (done done' : List Tree),
      a.length ≤ n → a.length < fuel → a.length < fuel' → F.Beside a s c →
        (F.first ≠ [] ∧ ∃ trees s' c', programFrom x fuel done s = .ok (done.reverse ++ trees) s' ∧
          programFrom y fuel' done' c = .ok (done'.reverse ++ trees) c' ∧
          F.Onward d a [] s s' c') ∨
        (F.first = [] ∧ ∃ s' c', programFrom x fuel done s = .error .outOfTokens s' ∧
          programFrom y fuel' done' c = .error (.stopped .outOfTokens) c')
  | fuel + 1, fuel' + 1, a, s, c, done, done', hn, hf, hf', hs => by
    cases hs.sight with
    | token hin hend ha hl =>
      rw [programFrom_of_token (peek_eq ha) hend, programFrom_of_token (Cursor.peek_eq hl) hend]
      obtain ⟨t, a', s', c', hr, hr', ho, hlt⟩ | ⟨hfirst, s', c', hr, hr'⟩ | ⟨hne, -⟩ :=
        h (by simp [hin]) hn hs
      · rw [bind_of_ok hr, bind_of_ok hr']
        obtain ⟨hfirst, trees, s'', c'', hmore, hmore', ho'⟩ | hstop :=
          programFrom_eq hsame h fuel fuel' (t :: done) (t :: done') (by omega) (by omega) (by omega)
            ho.beside
        · refine .inl ⟨hfirst, t :: trees, s'', c'', ?_, ?_, ho.trans ho'⟩
          · rw [hmore, List.reverse_cons, List.append_assoc, List.singleton_append]
          · rw [hmore', List.reverse_cons, List.append_assoc, List.singleton_append]
        · exact .inr hstop
      · rw [bind_of_error hr, bind_of_error hr']
        exact .inr ⟨hfirst, s', c', rfl, rfl⟩
      · exact absurd hsame hne
    | finish hout he ha hl =>
      subst hout
      refine .inl ⟨?_, [], s, c, ?_, ?_, hs.onward⟩
      · rw [← List.nil_append F.first, ← hs.ahead, ha]
        exact List.cons_ne_nil _ _
      · rw [programFrom_of_eof ha he, List.append_nil]
      · rw [List.append_nil]
        exact itemsUntil_of_end (Cursor.peek_eq hl) (by simpa using he)
    | nothing hfirst ha hl =>
      exact .inr ⟨hfirst, s, c, bind_of_error (peek_of_nil ha),
        bind_of_error (Cursor.peek_of_none hl)⟩
    | parted hdiffer _ _ => exact absurd hsame hdiffer

/-- If the first parser reports nothing up to the end of the program, the other one has read the same
statements when it comes to the fork. -/
theorem programFrom_append {e : Token} (hfirst : F.first = e :: rest) (h : F.AbreastAtTop n d x y) :
    ∀ (fuel fuel' : Nat) {a : List Token} {s s' : State} {c : Cursor.State} {done trees : List Tree},
      a.length ≤ n → a.length < fuel → a.length < fuel' → F.Beside a s c →
        programFrom x fuel done s = .ok trees s' → s'.problems.size ≤ s.problems.size →
          ∃ done' c' left, trees = done'.reverse ∧ F.Onward d a [] s s' c' ∧
            fuel' ≤ left + a.length ∧
            programFrom y fuel' done c = programFrom y left done' c'
  | fuel + 1, fuel' + 1, a, s, s', c, done, trees, hn, hf, hf', hs, hlist, hclean => by
    have he : e.kind = .eof := F.ends e (by simp [hfirst])
    cases a with
    | nil =>
      have ha : s.ahead = e :: rest := hs.ahead.trans hfirst
      cases (programFrom_of_eof ha he).symm.trans hlist
      exact ⟨done, c, fuel' + 1, rfl, hs.onward, by simp, rfl⟩
    | cons t more =>
      have hend : t.kind ≠ .eof := F.inside t (hs.suffix.subset List.mem_cons_self)
      have hl : c.tokens[c.position]? = some t := hs.lookup
      rw [programFrom_of_token (peek_eq hs.ahead) hend] at hlist
      obtain ⟨tree, s₁, hr, hlist⟩ := bind_eq_ok.1 hlist
      rw [programFrom_of_token (Cursor.peek_eq hl) hend]
      obtain ⟨tree', a', s₁', c', hx, hy, ho, hlt⟩ | ⟨hnil, -⟩ | ⟨-, hlapse⟩ :=
        h (List.cons_ne_nil t more) hn hs
      · cases hr.symm.trans hx
        rw [bind_of_ok hy]
        have hgrows := ho.grows
        obtain ⟨done', c'', left, htrees, ho', hleft, hcursor⟩ := programFrom_append hfirst h fuel
          fuel' (by omega) (by omega) (by omega) ho.beside hlist (by omega)
        exact ⟨done', c'', left, htrees, ho.trans ho', by omega, hcursor⟩
      · rw [hfirst] at hnil
        cases hnil
      · obtain ⟨ha, -, hreported⟩ := hlapse.ok hr
        cases (programFrom_of_eof (ha.trans hfirst) he).symm.trans hlist
        have := hreported trivial
        omega

end Programs

end LoxLang.Parser.Fork
