import LoxLang.Token.Scan

/-!
# Tokens of scanned programs

A token that was cut from a program has its text as its lexeme. Only a word can be an identifier or
a keyword, so no identifier reads `this` or `super`, and the keywords of this name read exactly so.
The end of the program comes last and nowhere else.
-/

namespace LoxLang

/-- The lexeme of a token is a text that fits its kind, and its value is a scalar. -/
structure Token.Genuine (t : Token) : Prop where
  lexeme : ∃ s, t.lexeme = .str s ∧ (t.kind = .identifier → Token.Kind.ofWord s = .identifier) ∧
    (t.kind = .kwThis → s = "this") ∧ (t.kind = .kwSuper → s = "super")
  literal : ∃ value, t.literal = .scalar value

variable {s : String} {c : Char}

namespace Token.Kind

/-- The kinds of tokens that are made of signs. -/
def isSign : Kind → Bool
  | leftParen | rightParen | leftBrace | rightBrace | comma | dot | minus | plus | semicolon | slash
  | star | bang | bangEqual | equal | equalEqual | greater | greaterEqual | less | lessEqual => true
  | _ => false

/-- A word that is no identifier is a keyword. -/
theorem mem_keywords {kind : Kind} (h : ofWord s = kind) (hk : kind ≠ identifier) :
    (s, kind) ∈ keywords := by
  unfold ofWord at h
  cases hl : keywords.lookup s with
  | none =>
    rw [hl] at h
    exact absurd h.symm hk
  | some k =>
    rw [hl] at h
    obtain ⟨before, after, he, -⟩ := List.lookup_eq_some_iff.1 hl
    rw [he]
    simp [← h]

theorem eq_this (h : ofWord s = kwThis) : s = "this" := by
  simpa [keywords] using mem_keywords h (by decide)

theorem eq_super (h : ofWord s = kwSuper) : s = "super" := by
  simpa [keywords] using mem_keywords h (by decide)

theorem ofWord_ne_eof (s : String) : ofWord s ≠ eof := by
  intro h
  simpa [keywords] using mem_keywords h (by decide)

end Token.Kind

variable {p : Piece}

namespace Piece

/-- The symbols are made of signs. -/
def Shape.IsSign (shape : Shape) : Prop :=
  ∀ kind, shape = .symbol kind → kind.isSign = true

theorem isSign_of_single {kind : Token.Kind} (h : single? c = some kind) : kind.isSign = true := by
  unfold single? at h
  split at h <;> cases h <;> rfl

theorem isSign_of_paired {withEqual alone : Token.Kind} (h : paired? c = some (withEqual, alone)) :
    withEqual.isSign = true ∧ alone.isSign = true := by
  unfold paired? at h
  split at h <;> cases h <;> exact ⟨rfl, rfl⟩

/-- The symbols that the scanner finds are signs. -/
theorem isSign_shapeAt (c : Char) (s : List Char) : (shapeAt c s).1.IsSign := by
  unfold shapeAt
  split
  · next hk =>
    rintro _ ⟨⟩
    exact isSign_of_single hk
  · next hk =>
    split
    · rintro _ ⟨⟩
      exact (isSign_of_paired hk).1
    · rintro _ ⟨⟩
      exact (isSign_of_paired hk).2
  · split
    · split
      · nofun
      · nofun
      · rintro _ ⟨⟩
        rfl
    · split
      · nofun
      · split
        · dsimp only
          split <;> nofun
        · split
          · nofun
          · split <;> nofun

theorem isSign_piecesOnto (s : List Char) (done : List Piece) (h : ∀ p ∈ done, p.shape.IsSign) :
    ∀ p ∈ piecesOnto done s, p.shape.IsSign := by
  fun_induction piecesOnto done s with
  | case1 done => exact h
  | case2 done c s shape n hshape ih =>
    refine ih fun p hp => ?_
    rcases List.mem_cons.1 hp with rfl | hp
    · have := isSign_shapeAt c s
      rwa [hshape] at this
    · exact h p hp

/-- The token of a piece is genuine, and not the end of the program. -/
theorem genuine_token (hp : p.shape.IsSign) {kind : Token.Kind} {value : Scalar}
    (h : p.token? = some (kind, value)) (line : Int) :
    (Token.ofText kind (String.ofList p.text) value line).Genuine ∧ kind ≠ .eof := by
  unfold token? at h
  split at h
  · next k hk =>
    cases h
    have hs := hp kind hk
    refine ⟨⟨⟨_, rfl, ?_, ?_, ?_⟩, _, rfl⟩, ?_⟩ <;> rintro rfl <;> cases hs
  · cases h
    exact ⟨⟨⟨_, rfl, id, Token.Kind.eq_this, Token.Kind.eq_super⟩, _, rfl⟩,
      Token.Kind.ofWord_ne_eof _⟩
  · cases h
    exact ⟨⟨⟨_, rfl, nofun, nofun, nofun⟩, _, rfl⟩, nofun⟩
  · cases h
    exact ⟨⟨⟨_, rfl, nofun, nofun, nofun⟩, _, rfl⟩, nofun⟩
  · cases h

end Piece

/-- The tokens of a scan are genuine. -/
theorem Scan.genuine_add {scan : Scan} (hp : p.shape.IsSign)
    (h : ∀ t ∈ scan.tokens, t.Genuine ∧ t.kind ≠ .eof) :
    ∀ t ∈ (scan.add p).tokens, t.Genuine ∧ t.kind ≠ .eof := by
  intro t ht
  unfold Scan.add at ht
  split at ht
  · next kind literal hk =>
    rcases Array.mem_push.1 ht with ht | rfl
    · exact h t ht
    · exact Piece.genuine_token hp hk _
  · exact h t ht

theorem Scan.static_add {scan : Scan} (p : Piece) (h : ∀ d ∈ scan.problems, d.isStatic = true) :
    ∀ d ∈ (scan.add p).problems, d.isStatic = true := by
  intro d hd
  unfold Scan.add at hd
  dsimp only at hd
  split at hd
  · rcases Array.mem_push.1 hd with hd | rfl
    · exact h d hd
    · rfl
  · exact h d hd

/-- The tokens of a program are genuine, and the end of the program comes after them. -/
theorem scan_genuine (source : String) :
    ∃ ts e, (scan source).finish = ts ++ [e] ∧ e.kind = .eof ∧
      ∀ t ∈ ts, t.Genuine ∧ t.kind ≠ .eof := by
  have hpieces : ∀ p ∈ Piece.pieces source.toList, p.shape.IsSign := by
    intro p hp
    exact Piece.isSign_piecesOnto _ [] (by simp) p (List.mem_reverse.1 hp)
  have hts : ∀ t ∈ (scan source).tokens, t.Genuine ∧ t.kind ≠ .eof :=
    List.foldlRecOn
      (motive := fun found : Scan => ∀ t ∈ found.tokens, t.Genuine ∧ t.kind ≠ .eof) _ _
      (by simp) fun _ h p hp => Scan.genuine_add (hpieces p hp) h
  refine ⟨(scan source).tokens.toList, .ofText .eof "" .nil (scan source).line, ?_, rfl, ?_⟩
  · simp [Scan.finish]
  · exact fun t ht => hts t (Array.mem_toList_iff.1 ht)

/-- What is wrong with the characters of a program is a static problem. -/
theorem scan_static (source : String) : ∀ d ∈ (scan source).problems, d.isStatic = true :=
  List.foldlRecOn (motive := fun found : Scan => ∀ d ∈ found.problems, d.isStatic = true) _ _
    (by simp) fun _ h p _ => Scan.static_add p h

end LoxLang
