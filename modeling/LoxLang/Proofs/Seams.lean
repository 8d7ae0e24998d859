import Mathlib.Data.List.Basic
import LoxLang.Proofs.Grammar.Shapes

/-!
# Where two programs meet

A line feed ends every piece of a program but a string and a block comment. So a program that ends
in neither of them, a line feed and a second program are cut into the pieces of the first, a gap,
and the pieces of the second (`pieces_append`). The tokens are those of both, and those of the
second have moved down by the lines of the first (`scan_append`).

The parser does not look at lines (`parse_map`), and declarations may follow declarations. So the
statements are those of both programs, too (`parse_append`).
-/

namespace LoxLang

variable {p : Char → Bool} {s : List Char}

namespace Piece

/-! ## Pieces -/

/-- A block comment without an end. -/
def OpenComment (p : Piece) : Prop :=
  ['/', '*'] <+: p.text ∧ ¬['*', '/'] <:+: p.text.drop 2

/-- An open comment can be tested for. -/
instance : DecidablePred OpenComment := fun _ => inferInstanceAs (Decidable (_ ∧ _))

theorem pieces_nil : pieces [] = [] := by
  simp [pieces, piecesOnto]

/-- The pieces are collected from the last to the first. -/
theorem piecesOnto_eq (done : List Piece) (s : List Char) :
    piecesOnto done s = (pieces s).reverse ++ done := by
  have hmore (done before : List Piece) : piecesOnto (done ++ before) s =
      piecesOnto done s ++ before := by
    fun_induction piecesOnto done s with
    | case1 done => rw [piecesOnto]
    | case2 done c s shape n hshape ih => rw [piecesOnto, hshape, ← ih, List.cons_append]
  have h := hmore [] done
  rw [List.nil_append] at h
  rw [h, pieces, List.reverse_reverse]

/-- The first piece, and those of the rest. -/
theorem pieces_cons (c : Char) (s : List Char) :
    pieces (c :: s) =
      ⟨(shapeAt c s).1, c :: s.take (shapeAt c s).2⟩ :: pieces (s.drop (shapeAt c s).2) := by
  rw [pieces, piecesOnto]
  dsimp only
  rw [piecesOnto_eq, List.reverse_append, List.reverse_reverse]
  rfl

/-- Nothing is lost. -/
theorem flatMap_pieces : ∀ s : List Char, (pieces s).flatMap text = s
  | [] => by rw [pieces_nil, List.flatMap_nil]
  | c :: s => by
    rw [pieces_cons, List.flatMap_cons, flatMap_pieces (s.drop (shapeAt c s).2), List.cons_append,
      List.take_append_drop]
termination_by s => s.length

theorem spanLength_le (p : Char → Bool) (s : List Char) : spanLength p s ≤ s.length :=
  (List.takeWhile_prefix p).length_le

theorem spanLength_append_of_lt (h : spanLength p s < s.length) (t : List Char) :
    spanLength p (s ++ t) = spanLength p s := by
  unfold spanLength at h ⊢
  rw [List.takeWhile_append, if_neg (by omega)]

theorem spanLength_append (hp : p '\n' = false) (s t : List Char) :
    spanLength p (s ++ '\n' :: t) = spanLength p s := by
  unfold spanLength
  rw [List.takeWhile_append]
  split
  · next h => simp [hp, h]
  · rfl

theorem commentLength_le (s : List Char) (n : Nat) : commentLength s n ≤ n + s.length := by
  fun_induction commentLength s n with
  | case1 => simp
  | case2 c rest n _ ih => simp; omega
  | case3 => simp

/-- A closed comment does not reach into what follows. -/
theorem commentLength_append (h : ['*', '/'] <:+: s) (t : List Char) (n : Nat) :
    commentLength (s ++ t) n = commentLength s n := by
  fun_induction commentLength s n with
  | case1 => rw [List.cons_append, List.cons_append, commentLength]
  | case2 c rest n hc ih =>
    rcases List.infix_cons_iff.1 h with hpre | hrest
    · obtain ⟨u, hu⟩ := hpre
      cases hu
      exact (hc u rfl rfl).elim
    · rw [List.cons_append, commentLength, ih hrest]
      rintro u rfl hu
      cases rest with
      | nil => simp at hrest
      | cons d rest =>
        cases hu
        exact hc rest rfl rfl
  | case3 => simp at h

theorem numberLength_le (s : List Char) : numberLength s ≤ s.length := by
  have hwhole := spanLength_le Decimal.isDigit s
  unfold numberLength
  dsimp only
  split
  · next rest hrest =>
    have hfraction := spanLength_le Decimal.isDigit rest
    have hlength := congrArg List.length hrest
    rw [List.length_drop, List.length_cons] at hlength
    split <;> omega
  · exact hwhole

/-- A number ends before a line feed. -/
theorem numberLength_append (s t : List Char) :
    numberLength (s ++ '\n' :: t) = numberLength s := by
  unfold numberLength
  dsimp only
  rw [spanLength_append (by decide), List.drop_append_of_le_length (spanLength_le _ s)]
  cases s.drop (spanLength Decimal.isDigit s) with
  | nil => rfl
  | cons c rest =>
    by_cases hc : c = '.'
    · subst hc
      simp only [List.cons_append, spanLength_append (p := Decimal.isDigit) (by decide)]
    · simp [hc]

/-- A piece that ends before the end of the text is not longer if more text follows. -/
theorem shapeAt_append {c : Char} (t : List Char) (hu : (shapeAt c s).1 ≠ .unclosed)
    (hc : ¬OpenComment ⟨(shapeAt c s).1, c :: s.take (shapeAt c s).2⟩) :
    shapeAt c (s ++ '\n' :: t) = shapeAt c s := by
  unfold shapeAt at hu hc ⊢
  split
  · rfl
  · cases s with
    | nil => rfl
    | cons d s =>
      by_cases hd : d = '='
      · subst hd
        rfl
      · simp [hd]
  · next hsingle hpaired =>
    rw [hsingle, hpaired] at hu hc
    dsimp only at hu hc
    by_cases hslash : c = '/'
    · subst hslash
      rw [if_pos rfl, if_pos rfl]
      rw [if_pos rfl] at hc
      cases s with
      | nil => rfl
      | cons d s =>
        by_cases hline : d = '/'
        · subst hline
          simp [spanLength_append]
        · by_cases hblock : d = '*'
          · subst hblock
            have hclosed : ['*', '/'] <:+: s.take (commentLength s 0) := by
              by_contra hopen
              refine hc ⟨⟨s.take (commentLength s 0), ?_⟩, ?_⟩
              · simp [Nat.add_comm 1]
              · simpa [Nat.add_comm 1] using hopen
            have hin : ['*', '/'] <:+: s := hclosed.trans (List.take_prefix _ _).isInfix
            simp [commentLength_append hin]
          · simp [hline, hblock]
    · rw [if_neg hslash, if_neg hslash]
      rw [if_neg hslash] at hu
      split
      · rfl
      · next hblank =>
        rw [if_neg hblank] at hu
        split
        · next hquote =>
          rw [if_pos hquote] at hu
          cases hrest : s.drop (spanLength (· ≠ '"') s) with
          | nil =>
            rw [hrest] at hu
            exact absurd rfl hu
          | cons d rest =>
            have hlt : spanLength (· ≠ '"') s < s.length := by
              by_contra hge
              rw [List.drop_eq_nil_of_le (by omega)] at hrest
              cases hrest
            dsimp only
            rw [spanLength_append_of_lt hlt, List.drop_append_of_le_length (Nat.le_of_lt hlt),
              hrest]
            rfl
        · rw [numberLength_append, spanLength_append (by decide)]

/-- No piece reaches beyond the input. -/
theorem shapeAt_le (c : Char) (s : List Char) : (shapeAt c s).2 ≤ s.length := by
  unfold shapeAt
  split
  · exact Nat.zero_le _
  · split <;> simp
  · split
    · split
      · next rest =>
        have hle := spanLength_le (· ≠ '\n') rest
        rw [List.length_cons]
        omega
      · next rest =>
        have hle := commentLength_le rest 0
        rw [List.length_cons]
        omega
      · exact Nat.zero_le _
    · split
      · exact Nat.zero_le _
      · split
        · dsimp only
          split
          · exact spanLength_le _ s
          · next hrest =>
            by_contra hge
            exact hrest (List.drop_eq_nil_of_le (Nat.le_of_lt_succ (Nat.not_le.1 hge)))
        · split
          · exact numberLength_le s
          · split
            · exact spanLength_le _ s
            · exact Nat.zero_le _

/-- A line feed keeps the pieces before it from those after it. -/
theorem pieces_append (t : List Char) : ∀ s : List Char,
    (∀ p ∈ pieces s, p.problem? = none ∧ ¬p.OpenComment) →
    pieces (s ++ '\n' :: t) = pieces s ++ ⟨.gap, ['\n']⟩ :: pieces t
  | [], _ => by
    rw [pieces_nil, List.nil_append, List.nil_append, pieces_cons]
    rfl
  | c :: s, h => by
    rw [pieces_cons] at h
    obtain ⟨⟨hproblem, hopen⟩, hrest⟩ := List.forall_mem_cons.1 h
    have hclosed : (shapeAt c s).1 ≠ .unclosed := by
      intro hu
      rw [problem?, hu] at hproblem
      cases hproblem
    have hle := shapeAt_le c s
    rw [List.cons_append, pieces_cons, shapeAt_append t hclosed hopen,
      List.take_append_of_le_length hle, List.drop_append_of_le_length hle,
      pieces_append t _ hrest, pieces_cons, List.cons_append]
termination_by s => s.length

/-! ## Lines -/

/-- The tokens of pieces that start on a line. -/
def tokensFrom (line : Int) : List Piece → List Token
  | [] => []
  | p :: ps =>
    let tokens := match p.token? with
      | some (kind, value) => [.ofText kind (String.ofList p.text) value (line + p.lineFeeds)]
      | none => []
    tokens ++ tokensFrom (line + p.lineFeeds) ps

end Piece

/-- The line that lies `k` lines further down. -/
def Json.lineDown (k : Int) : Json → Json
  | .scalar (.int n) => .int (n + k)
  | line => line

/-- The token `k` lines further down. -/
def Token.down (k : Int) (t : Token) : Token :=
  { t with line := t.line.lineDown k }

namespace Piece

/-- The number of line feeds in pieces. -/
def feeds (ps : List Piece) : Nat :=
  (ps.flatMap text).count '\n'

theorem feeds_cons (p : Piece) (ps : List Piece) : feeds (p :: ps) = p.lineFeeds + feeds ps := by
  simp [feeds, lineFeeds, List.count_append]

theorem tokensFrom_append (line : Int) (ps qs : List Piece) :
    tokensFrom line (ps ++ qs) = tokensFrom line ps ++ tokensFrom (line + feeds ps) qs := by
  induction ps generalizing line with
  | nil => simp [tokensFrom, feeds]
  | cons p ps ih =>
    rw [List.cons_append, tokensFrom, tokensFrom, ih, List.append_assoc, feeds_cons]
    push_cast
    rw [Int.add_assoc]

theorem tokensFrom_down (k line : Int) (ps : List Piece) :
    tokensFrom (line + k) ps = (tokensFrom line ps).map (Token.down k) := by
  induction ps generalizing line with
  | nil => rfl
  | cons p ps ih =>
    have hline : line + k + p.lineFeeds = line + p.lineFeeds + k := by omega
    rw [tokensFrom, tokensFrom, List.map_append, hline, ih]
    congr 1
    split <;> rfl

end Piece

namespace Scan

/-- The scan of pieces counts their line feeds and collects their tokens. -/
theorem foldl_add (ps : List Piece) (found : Scan) :
    (ps.foldl add found).line = found.line + Piece.feeds ps ∧
      (ps.foldl add found).tokens.toList =
        found.tokens.toList ++ Piece.tokensFrom found.line ps := by
  induction ps generalizing found with
  | nil => simp [Piece.feeds, Piece.tokensFrom]
  | cons p ps ih =>
    obtain ⟨hline, htokens⟩ := ih (found.add p)
    rw [List.foldl_cons, hline, htokens, Piece.feeds_cons, Piece.tokensFrom, ← List.append_assoc]
    refine ⟨?_, ?_⟩
    · simp only [add]
      omega
    · congr 1
      unfold add
      cases p.token? with
      | some token => exact Array.toList_push
      | none => exact (List.append_nil _).symm

/-- A scan has no problem if no piece has one. -/
theorem foldl_problems (ps : List Piece) (found : Scan) :
    (ps.foldl add found).problems = #[] ↔
      found.problems = #[] ∧ ∀ p ∈ ps, p.problem? = none := by
  induction ps generalizing found with
  | nil => simp
  | cons p ps ih =>
    rw [List.foldl_cons, ih, List.forall_mem_cons, ← and_assoc]
    refine and_congr_left fun _ => ?_
    unfold add
    dsimp only
    split
    · next hp => simp [hp]
    · next hp => simp [hp]

end Scan

section Scans

variable (source : String)

theorem scan_line : (scan source).line = 1 + (source.toList.count '\n' : Nat) := by
  have h := (Scan.foldl_add (Piece.pieces source.toList) {}).1
  rwa [Piece.feeds, Piece.flatMap_pieces] at h

theorem scan_tokens :
    (scan source).tokens.toList = Piece.tokensFrom 1 (Piece.pieces source.toList) :=
  (Scan.foldl_add (Piece.pieces source.toList) {}).2

theorem scan_problems :
    (scan source).problems = #[] ↔ ∀ p ∈ Piece.pieces source.toList, p.problem? = none := by
  exact (Scan.foldl_problems (Piece.pieces source.toList) {}).trans (and_iff_right rfl)

end Scans

/-! ## Derivations -/

namespace Grammar

/-- Declarations may be followed by declarations. -/
theorem Derives.append {b : Bool} {us : List Token} {trees' : List Tree}
    (h' : Derives b .declarations us trees') : ∀ {ts : List Token} {trees : List Tree},
    Derives b .declarations ts trees → Derives b .declarations (ts ++ us) (trees ++ trees')
  | _, _, .noDeclaration => h'
  | _, _, .moreDeclarations h hrest => by
    rw [List.append_assoc]
    exact .moreDeclarations h (h'.append hrest)

end Grammar

/-! ## Programs -/

theorem Scan.finish_eq (found : Scan) :
    found.finish = found.tokens.toList ++ [.ofText .eof "" .nil found.line] := by
  simp [Scan.finish]

theorem kind_ne_eof_of_mem_scan {source : String} :
    ∀ t ∈ (scan source).tokens.toList, t.kind ≠ .eof := by
  obtain ⟨ts, e, hts, -, hgenuine⟩ := scan_genuine source
  rw [Scan.finish_eq] at hts
  rw [(List.append_inj' hts rfl).1]
  exact fun t ht => (hgenuine t ht).2

/-- The source ends in a block comment that is not closed. -/
def EndsInComment (source : String) : Prop :=
  ∃ p ∈ Piece.pieces source.toList, p.OpenComment

section Joined

variable {first second : String}

/-- A program and another one below it have the tokens of both, those of the second one further
down. -/
theorem scan_append (h₁ : (scan first).problems = #[]) (h₂ : (scan second).problems = #[])
    (hopen : ¬EndsInComment first) :
    (scan (first ++ "\n" ++ second)).problems = #[] ∧
      (scan (first ++ "\n" ++ second)).tokens.toList = (scan first).tokens.toList ++
        (scan second).tokens.toList.map (Token.down (scan first).line) := by
  have hsource : (first ++ "\n" ++ second).toList = first.toList ++ '\n' :: second.toList := by
    simp
  rw [scan_problems] at h₁ h₂ ⊢
  have hpieces := Piece.pieces_append second.toList first.toList fun p hp =>
    ⟨h₁ p hp, fun ho => hopen ⟨p, hp, ho⟩⟩
  rw [scan_tokens, hsource, hpieces]
  refine ⟨?_, ?_⟩
  · rw [List.forall_mem_append, List.forall_mem_cons]
    exact ⟨h₁, rfl, h₂⟩
  · rw [Piece.tokensFrom_append, Piece.feeds, Piece.flatMap_pieces, ← scan_line, Piece.tokensFrom,
      scan_tokens, scan_tokens, ← Piece.tokensFrom_down]
    congr 1
    show Piece.tokensFrom ((scan first).line + 1) _ = _
    rw [Int.add_comm]

/-- A program and another one below it have the statements of both, unless they are nested too
deeply. -/
theorem parse_append {ts us : List Tree} (h₁ : (scan first).problems = #[])
    (h₂ : (scan second).problems = #[]) (hopen : ¬EndsInComment first)
    (hp₁ : parse? (scan first).finish = some ⟨ts, []⟩)
    (hp₂ : parse? (scan second).finish = some ⟨us, []⟩)
    (hdepth : ¬Parser.DepthReported
      ((parse? (scan (first ++ "\n" ++ second)).finish).getD {}).problems) :
    parse? (scan (first ++ "\n" ++ second)).finish =
      some ⟨ts ++ us.map (Tree.mapTokens (Token.down (scan first).line)), []⟩ := by
  obtain ⟨hd₁⟩ := derives_of_parse hp₁
  have hkeeps : Parser.KeepsKinds (Token.down (scan first).line) := ⟨fun _ => rfl, fun _ => rfl⟩
  have hdown := (parse_map hkeeps).2 ⟨us, hp₂, rfl⟩
  rw [Scan.finish_eq, List.map_append, List.map_singleton] at hdown
  have hkinds : ∀ t ∈ (scan second).tokens.toList.map (Token.down (scan first).line),
      t.kind ≠ .eof := List.forall_mem_map.2 kind_ne_eof_of_mem_scan
  obtain ⟨hd₂⟩ := derives_of_parse_append hkinds (hkeeps.kind _) hdown
  have hd := hd₂.append hd₁
  rw [← (scan_append h₁ h₂ hopen).2] at hd
  have hread := Parser.program_complete kind_ne_eof_of_mem_scan
    (e := .ofText .eof "" .nil (scan (first ++ "\n" ++ second)).line) rfl Tree.maxDepth
    (.program hd)
  rw [← Scan.finish_eq] at hread
  rw [parse?] at hdepth ⊢
  rcases hread with hx | ⟨trees, s, hx, hreported⟩
  · rw [hx]
  · rw [hx] at hdepth
    exact absurd hreported hdepth

end Joined

end LoxLang
