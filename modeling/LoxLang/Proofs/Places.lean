import LoxLang.Proofs.Attested
import LoxLang.Proofs.Lexemes

/-!
# Where messages point

Every message of a run points into its source (`PointsInto`). What the scanner reports is on a line
that it has reached. What the parser and the resolver report is at a token, and this comes from the
source with the line on which its text ends, or it is the end of the source. A runtime error is at
the line of a token that is held by a tree of the program, whatever functions and bound methods the
tree has gone through. Only what is reported about the depth is excepted.
-/

namespace LoxLang

/-- The line is one of the source. -/
def IsLineOf (source : String) (n : Nat) : Prop :=
  1 ≤ n ∧ n ≤ 1 + source.toList.count '\n'

/-- The token was scanned from the source, and in the cut of the source into tokens its text ends on
the line. -/
def Token.EndsOn (t : Token) (source : String) (n : Nat) : Prop :=
  t ∈ (scan source).tokens ∧ t.line = .int n ∧ ∃ before text after kind value,
    Cut source.toList (before ++ ⟨.token kind value, text⟩ :: after) ∧
    t.lexeme = .str (String.ofList text) ∧
    n = 1 + (before.flatMap Part.text ++ text).count '\n'

/-- The place fits the line: a token with the text ends there, or the source ends there. -/
def Place.Fits (source : String) (n : Nat) : Place → Prop
  | nowhere => True
  | atEnd => n = 1 + source.toList.count '\n'
  | .at text => ∃ t : Token, t.lexeme = .str text ∧ t.EndsOn source n
  | verbatim _ => False

/-- A message points into the source. Messages about the depth are excepted. -/
def Diagnostic.PointsInto (source : String) : Diagnostic → Prop
  | static line place problem => problem ≠ .tooDeep →
    ∃ n : Nat, line = .int n ∧ IsLineOf source n ∧ place.Fits source n
  | runtime error => error.cause ≠ .stackOverflow →
    ∃ n : Nat, error.line = .int n ∧ IsLineOf source n ∧
      ∃ q, StandsFor source q ∧ ∃ u ∈ q.resolved, ∃ t ∈ u.tokens, t.EndsOn source n

/-! ## Tokens in the source -/

/-- A token of parts comes from one of them, and is on the line where its text ends. -/
theorem exists_part_of_mem_tokensAfter {t : Token} : ∀ {parts : List Part} {s : List Char},
    t ∈ tokensAfter s parts → ∃ before text after kind value,
      parts = before ++ ⟨.token kind value, text⟩ :: after ∧
      t = .ofText kind (String.ofList text) value
        (1 + ((s ++ (before.flatMap Part.text ++ text)).count '\n' : Nat)) := by
  intro parts
  induction parts with
  | nil => exact fun h => absurd h List.not_mem_nil
  | cons part parts ih =>
    intro s h
    obtain ⟨meaning, text⟩ := part
    have hlater (h : t ∈ tokensAfter (s ++ text) parts) : ∃ before text' after kind value,
        ⟨meaning, text⟩ :: parts = before ++ ⟨.token kind value, text'⟩ :: after ∧
        t = .ofText kind (String.ofList text') value
          (1 + ((s ++ (before.flatMap Part.text ++ text')).count '\n' : Nat)) := by
      obtain ⟨before, text', after, kind, value, rfl, rfl⟩ := ih h
      refine ⟨⟨meaning, text⟩ :: before, text', after, kind, value, rfl, ?_⟩
      rw [List.flatMap_cons, List.append_assoc, List.append_assoc]
    cases meaning with
    | token kind value =>
      rcases List.mem_cons.1 h with rfl | h
      · exact ⟨[], text, parts, kind, value, rfl, rfl⟩
      · exact hlater h
    | blank | comment | openComment | rejected | openString => exact hlater h

/-- A token of a source ends on a line of it. -/
theorem endsOn_of_mem_scan {source : String} {t : Token} (h : t ∈ (scan source).tokens) :
    ∃ n, t.EndsOn source n ∧ IsLineOf source n := by
  obtain ⟨parts, hcut, -⟩ := scan_cuts source
  have htokens : (scan source).tokens.toList = tokensAfter [] parts := by
    have hfinish := hcut.finish_eq
    rw [Scan.finish_eq, scan_line] at hfinish
    exact List.append_cancel_right hfinish
  have hmem := Array.mem_toList_iff.2 h
  rw [htokens] at hmem
  obtain ⟨before, text, after, kind, value, rfl, rfl⟩ := exists_part_of_mem_tokensAfter hmem
  refine ⟨_, ⟨h, rfl, before, text, after, kind, value, hcut, rfl, rfl⟩, Nat.le_add_right _ _, ?_⟩
  rw [← hcut.flatMap_text, List.flatMap_append, List.flatMap_cons, List.nil_append]
  simp only [List.count_append]
  omega

/-! ## The stages -/

section Stages

variable {source : String} {d : Diagnostic}

/-- A problem of the scanner has no place, and is on a line between the first and the last one. -/
theorem Scan.mem_problems_foldl_add {ps : List Piece} : ∀ {found : Scan},
    d ∈ (ps.foldl add found).problems → d ∈ found.problems ∨ ∃ (k : Nat) (problem : Problem),
      d = .static (.int (found.line + k)) .nowhere problem ∧ k ≤ Piece.feeds ps := by
  induction ps with
  | nil => exact .inl
  | cons p ps ih =>
    intro found h
    rw [Piece.feeds_cons]
    rcases ih h with h | ⟨k, problem, rfl, hk⟩
    · rw [problems_add] at h
      cases hp : p.problem? with
      | none =>
        rw [hp] at h
        exact .inl h
      | some problem =>
        rw [hp] at h
        rcases Array.mem_push.1 h with h | rfl
        · exact .inl h
        · exact .inr ⟨p.lineFeeds, problem, rfl, Nat.le_add_right _ _⟩
    · refine .inr ⟨p.lineFeeds + k, problem, ?_, Nat.add_le_add_left hk _⟩
      rw [Int.natCast_add, ← Int.add_assoc]
      rfl

theorem pointsInto_of_scan (h : d ∈ (scan source).problems) : d.PointsInto source := by
  obtain h | ⟨k, problem, rfl, hk⟩ := Scan.mem_problems_foldl_add h
  · exact absurd h (Array.not_mem_empty d)
  · rw [Piece.feeds, Piece.flatMap_pieces] at hk
    exact fun _ => ⟨1 + k, rfl, ⟨Nat.le_add_right _ _, Nat.add_le_add_left hk 1⟩, trivial⟩

/-- A problem at a token of the source, or at its end. -/
theorem pointsInto_ofToken {t : Token} (h : t ∈ (scan source).finish) (problem : Problem) :
    (Diagnostic.ofToken t problem).PointsInto source := by
  intro _
  rw [Scan.finish_eq, List.mem_append, Array.mem_toList_iff, List.mem_singleton] at h
  rcases h with h | rfl
  · obtain ⟨n, hends, hline⟩ := endsOn_of_mem_scan h
    refine ⟨n, hends.2.1, hline, ?_⟩
    obtain ⟨-, -, -, text, -, -, -, -, hlexeme, -⟩ := id hends
    rw [Place.ofToken, if_neg (kind_ne_eof_of_mem_scan t (Array.mem_toList_iff.2 h)), hlexeme]
    exact ⟨t, hlexeme, hends⟩
  · rw [scan_line]
    exact ⟨_, rfl, ⟨Nat.le_add_right _ _, Nat.le_refl _⟩, rfl⟩

/-- The problems of the parser point into the source. -/
theorem pointsInto_of_parse {parsed : Parsed} (hp : parse? (scan source).finish = some parsed)
    (h : d ∈ parsed.problems) : d.PointsInto source := by
  obtain ⟨s, hprogram, hproblems⟩ := parse_eq_some_iff.1 hp
  let e : Token := .ofText .eof "" .nil (scan source).line
  obtain ⟨trees, problems, hprogram', -, hplaced⟩ := Parser.program_eq (e := e)
    kind_ne_eof_of_mem_scan rfl (.inl rfl) (Nat.lt_succ_self _) [] []
  rw [Scan.finish_eq] at hprogram
  cases hprogram.symm.trans hprogram'
  rw [← hproblems, Array.mem_toList_iff] at h
  obtain ⟨t, ht, problem, rfl, -⟩ := hplaced d h
  rw [← Scan.finish_eq] at ht
  exact pointsInto_ofToken ht problem

/-- So do those of the resolver. -/
theorem pointsInto_of_resolve {trees : List Tree}
    (hp : parse? (scan source).finish = some ⟨trees, []⟩) (h : d ∈ (resolve trees).problems) :
    d.PointsInto source := by
  obtain ⟨t, ht, a, ha, problem, rfl⟩ | hdeep :=
    placed_resolve (named_scan source) (shaped_parse hp) h
  · refine pointsInto_ofToken ?_ problem
    rw [Scan.finish_eq]
    exact List.mem_append_left _ (Array.mem_toList_iff.2 (mem_tokens_of_parse hp t ht a ha))
  · unfold Resolver.isTooDeep at hdeep
    split at hdeep
    · exact fun hno => absurd rfl hno
    · cases hdeep

theorem pointsInto_of_foundIn (h : FoundIn source d) : d.PointsInto source := by
  rcases h with h | ⟨⟨trees, problems⟩, hp, h | ⟨rfl, h⟩⟩
  · exact pointsInto_of_scan h
  · exact pointsInto_of_parse hp h
  · exact pointsInto_of_resolve hp h

/-- A token of a tree of the program that the source stands for. -/
def ProgramToken (source : String) (t : Token) : Prop :=
  ∃ q, StandsFor source q ∧ ∃ u ∈ q.resolved, t ∈ u.tokens

theorem pointsInto_of_cites (h : d.Cites (ProgramToken source)) : d.PointsInto source := by
  obtain ⟨error, rfl, hcites⟩ := h
  intro hcause
  obtain ⟨t, ⟨q, hq, u, hu, ht⟩, hline⟩ := hcites hcause
  obtain ⟨n, hends, hn⟩ := endsOn_of_mem_scan (hq.mem_tokens u hu t ht)
  exact ⟨n, hline.trans hends.2.1, hn, q, hq, u, hu, t, ht, hends⟩

end Stages

/-- Whatever a source is run with on a new session, every message that is reported points into the
source, also if the run comes to no end. -/
theorem reported_points_into (detail : Nat) (clock : Clock) (source : String) :
    ∀ d, (stateAfter (Session.run source) (Session.start detail clock)).reporter.Has d →
      d.PointsInto source := by
  have hrun := carries_run (P := ProgramToken source) (o := .start detail clock)
    (.start detail clock) rfl source fun q hq u hu t ht => ⟨q, hq, u, hu, ht⟩
  have hsession : (stateAfter (Observe.run source) (.start detail clock)).session =
      stateAfter (Session.run source) (.start detail clock) :=
    (Observe.erases_run source).stateAfter _
  rw [← hsession]
  intro d hd
  rcases (Ends.stateAfter hrun).reported d hd with hd | hd | hd
  · exact absurd hd (by simp [Reporter.Has, Observation.start, Session.start])
  · exact pointsInto_of_foundIn hd
  · exact pointsInto_of_cites hd

/-- A method is taken from its object and called on another line than the one where it goes
wrong. -/
def takenMethod : String :=
  "class A\n{ m() { return -this; } }\nvar f = A().m;\nf();"

theorem reported_points_into_takenMethod :
    ∃ d, (stateAfter (Session.run takenMethod) (Session.start 0 (.still 0))).reporter.Has d ∧
      d.text = "Operand must be a number.\n[line 2]" ∧ d.PointsInto takenMethod := by
  have hany : (stateAfter (Session.run takenMethod) (Session.start 0 (.still 0))).reporter.log.any
      (fun d => d.text = "Operand must be a number.\n[line 2]") = true := by decide +kernel
  obtain ⟨d, hd, htext⟩ := Array.any_eq_true'.1 hany
  exact ⟨d, .inl hd, of_decide_eq_true htext, reported_points_into 0 (.still 0) takenMethod d (.inl hd)⟩

end LoxLang
