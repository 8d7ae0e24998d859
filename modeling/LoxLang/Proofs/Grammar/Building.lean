import LoxLang.Proofs.Contexts
import LoxLang.Proofs.Grammar.Recognition
import LoxLang.Tree.Serial

/-!
# How trees are built

The parser builds its trees from its tokens: it fills the slots of forms, with lists and with
nothing where something is left out, and it makes literals of values. No use of a name has a depth
and no literal a number. `Builds` says of a property that each of these steps keeps it.

Tokens of a scanned program stand for values of the language (`scan_plain`), and a source about
which nothing is reported is derived (`derives_of_parse`).
-/

namespace LoxLang

/-! ## Plain tokens -/

/-- The token stands for a value of the language, or for none. -/
def Token.Plain (t : Token) : Prop :=
  ∃ s, t.literal = .scalar s ∧ (Tree.scalar s).isForeign = false

theorem Piece.plain_token {p : Piece} {kind : Token.Kind} {value : Scalar}
    (h : p.token? = some (kind, value)) (line : Int) :
    (Token.ofText kind (String.ofList p.text) value line).Plain := by
  unfold token? at h
  split at h <;> cases h <;> exact ⟨_, rfl, rfl⟩

/-- The scanner gives plain tokens. -/
theorem scan_plain (source : String) : ∀ t ∈ (scan source).finish, t.Plain := by
  have hts : ∀ t ∈ (scan source).tokens, t.Plain := by
    refine List.foldlRecOn (motive := fun found : Scan => ∀ t ∈ found.tokens, t.Plain) _ _ (by simp)
      fun found h p _ t ht => ?_
    unfold Scan.add at ht
    split at ht
    · next hk =>
      rcases Array.mem_push.1 ht with ht | rfl
      · exact h t ht
      · exact Piece.plain_token hk _
    · exact h t ht
  intro t ht
  have hmem : t ∈ (scan source).tokens.toList ++ [.ofText .eof "" .nil (scan source).line] := by
    simpa [Scan.finish] using ht
  rcases List.mem_append.1 hmem with ht | ht
  · exact hts t (Array.mem_toList_iff.1 ht)
  · cases List.mem_singleton.1 ht
    exact ⟨_, rfl, rfl⟩

/-! ## Steps -/

/-- The tree is of a form, no literal, and has no depth. -/
def Tree.isNew : Tree → Bool
  | scalar _ | list _ | token _ | object _ | literal .. => false
  | ident _ depth | assign _ _ depth | thisRef _ depth | superRef _ _ depth => depth.isNone
  | _ => true

/-- The property is kept by the steps that build a tree. -/
structure Builds (T : Tree → Prop) : Prop where
  null : T .null
  literal : ∀ s, (Tree.scalar s).isForeign = false → T (.literal (.scalar s) none)
  list : ∀ items, (∀ t ∈ items, T t) → T (.list items)
  form : ∀ t, t.isNew = true → (∀ u ∈ t.children, T u) → T t

namespace Builds

variable {T : Tree → Prop} {t a b c : Tree}

theorem one (hT : Builds T) (ht : t.isNew = true) (hc : t.children = [a]) (ha : T a) : T t :=
  hT.form t ht (by simpa [hc] using ha)

theorem two (hT : Builds T) (ht : t.isNew = true) (hc : t.children = [a, b]) (ha : T a)
    (hb : T b) : T t :=
  hT.form t ht (by simpa [hc] using ⟨ha, hb⟩)

theorem three (hT : Builds T) (ht : t.isNew = true) (hc' : t.children = [a, b, c]) (ha : T a)
    (hb : T b) (hc : T c) : T t :=
  hT.form t ht (by simpa [hc'] using ⟨ha, hb, hc⟩)

/-- The tree of a plain token as a literal. -/
theorem ofToken (hT : Builds T) {t : Token} (ht : t.Plain) :
    T (.literal (.ofJson t.literal) none) := by
  obtain ⟨s, hs, hf⟩ := ht
  rw [hs]
  exact hT.literal s hf

end Builds

/-- Tokens about which nothing is reported are derived. -/
theorem derives_of_parse_append {ts : List Token} {e : Token} (hts : ∀ t ∈ ts, t.kind ≠ .eof)
    (he : e.kind = .eof) {statements : List Tree}
    (hp : parse? (ts ++ [e]) = some ⟨statements, []⟩) :
    Grammar.Derives true .program ts statements := by
  obtain ⟨trees, s, hx, -, hd⟩ := Parser.program_ok hts he Tree.maxDepth
  rw [parse?, hx] at hp
  simp only [Option.some.injEq, Parsed.mk.injEq] at hp
  obtain ⟨rfl, hnil⟩ := hp
  exact hd hnil

/-- A source about which nothing is reported is derived. -/
theorem derives_of_parse {source : String} {statements : List Tree}
    (hp : parse? (scan source).finish = some ⟨statements, []⟩) :
    Grammar.Derives true .program (scan source).tokens.toList statements := by
  obtain ⟨ts, e, hts, he, hgenuine⟩ := scan_genuine source
  have htokens : (scan source).tokens.toList = ts := by
    have hfinish : (scan source).tokens.toList ++ [.ofText .eof "" .nil (scan source).line] =
        ts ++ [e] := by simpa [Scan.finish] using hts
    exact (List.append_inj' hfinish rfl).1
  rw [hts] at hp
  rw [htokens]
  exact derives_of_parse_append (fun t ht => (hgenuine t ht).2) he hp

end LoxLang
