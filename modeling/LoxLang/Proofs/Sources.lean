import LoxLang.Proofs.Depths

/-!
# Sources without static problems

A source in which no static problem is found (`Clean`) stands for a program. Running it executes the
resolved statements of the program (`StandsFor.run_eq`), whose tokens are tokens of the source.
-/

namespace LoxLang

/-- The program was given its depths, and nothing is wrong with it. -/
theorem Program.Accepted.written {q : Program} (h : q.Accepted) :
    q.resolved = Resolver.writtenIn [] .none q.parsed ∧ (Tree.list q.parsed).reports [] = [] := by
  obtain ⟨source, -, hparse⟩ := h.parsed
  obtain ⟨trees, htrees, -, hresult⟩ :=
    exists_resolve (named_scan source) (shaped_parse hparse)
  rw [h.problems] at hresult
  obtain ⟨rfl, hreports⟩ := hresult nofun
  exact ⟨Except.ok.inj (h.statements.symm.trans htrees), hreports.symm⟩

/-- Nothing is wrong with the source, and it stands for the program. -/
structure StandsFor (source : String) (q : Program) : Prop where
  scanned : (scan source).problems = #[]
  parsed : parse? (scan source).finish = some ⟨q.parsed, []⟩
  statements : (resolve q.parsed).statements = .ok q.resolved
  problems : (resolve q.parsed).problems = []

/-- No static problem is found in the source. -/
structure Clean (source : String) : Prop where
  scanned : (scan source).problems = #[]
  parsed : ((parse? (scan source).finish).getD {}).problems = []
  resolved : (resolve ((parse? (scan source).finish).getD {}).statements).problems = []

theorem clean_iff (source : String) :
    ((scan source).problems.isEmpty ∧ ((parse? (scan source).finish).getD {}).problems.isEmpty ∧
      (resolve ((parse? (scan source).finish).getD {}).statements).problems.isEmpty) ↔
      Clean source := by
  simp only [Array.isEmpty_iff, List.isEmpty_iff]
  exact ⟨fun ⟨hs, hp, hr⟩ => ⟨hs, hp, hr⟩, fun h => ⟨h.scanned, h.parsed, h.resolved⟩⟩

/-- That a source is clean can be tested. -/
instance : DecidablePred Clean := fun source => decidable_of_iff _ (clean_iff source)

/-- The resolved statements of a source. -/
def resolvedOf (source : String) : List Tree :=
  match (resolve ((parse? (scan source).finish).getD {}).statements).statements with
  | .ok trees => trees
  | .error _ => []

theorem Clean.standsFor {source : String} (h : Clean source) :
    StandsFor source ⟨((parse? (scan source).finish).getD {}).statements, resolvedOf source⟩ := by
  have hp := parse_eq h.parsed
  obtain ⟨trees, htrees, -, -⟩ := resolve_fine hp (wellFormed_of_parse hp)
  refine ⟨h.scanned, hp, ?_, h.resolved⟩
  rw [resolvedOf, htrees]

theorem Clean.exists_program {source : String} (h : Clean source) :
    ∃ q, StandsFor source q :=
  ⟨_, h.standsFor⟩

namespace Tree

/-- Depths are no tokens. -/
theorem tokens_bare (t : Tree) : t.bare.tokens = t.tokens := by
  induction t using children_ind with
  | step t ih =>
    cases t with
    | list items =>
      simp only [bare, tokens, bareIn_eq, tokensIn_eq, List.flatMap_map]
      exact List.flatMap_congr ih
    | _ => simp_all [bare, tokens, children]

end Tree

namespace StandsFor

variable {source : String} {q : Program}

theorem clean (h : StandsFor source q) : Clean source := by
  refine ⟨h.scanned, ?_, ?_⟩
  · rw [h.parsed]
    rfl
  · rw [h.parsed]
    exact h.problems

theorem resolvedOf_eq (h : StandsFor source q) : resolvedOf source = q.resolved := by
  rw [resolvedOf, h.parsed, Option.getD_some, h.statements]

theorem accepted (h : StandsFor source q) : q.Accepted :=
  ⟨⟨source, h.scanned, h.parsed⟩, h.statements, h.problems⟩

theorem wellFormed (h : StandsFor source q) : ∀ t ∈ q.resolved, WellFormed .statement t :=
  wellFormed_of_fine h.accepted.fine

/-- The tokens of the program are tokens of the source. -/
theorem mem_tokens (h : StandsFor source q) :
    ∀ t ∈ q.resolved, ∀ a ∈ t.tokens, a ∈ (scan source).tokens := by
  obtain ⟨s, hpasses, -⟩ := h.accepted.passes
  intro t ht a ha
  obtain ⟨u, hu, hb⟩ : ∃ u ∈ q.parsed, u.bare = t.bare := by
    have hmem := List.mem_map_of_mem (f := Tree.bare) ht
    rw [hpasses.bare_eq] at hmem
    exact List.mem_map.1 hmem
  rw [← Tree.tokens_bare, ← hb, Tree.tokens_bare] at ha
  exact mem_tokens_of_parse h.parsed u hu a ha

/-- A source is run by executing the resolved program. -/
theorem run_eq (h : StandsFor source q) {s : Session} (hblocked : s.machine.trace.blocked = false)
    (hs : s.reporter.hadError = false) :
    ∃ m, Traced s.machine m ∧
      Session.run source s = Session.execute q.resolved ⟨m, s.reporter⟩ := by
  obtain ⟨m, ht, hrun⟩ := Session.run_eq hblocked hs h.scanned h.parsed
  obtain ⟨m', ht', hrun'⟩ := Session.resolve_execute_eq (s := ⟨m, s.reporter⟩)
    (ht.blocked.trans hblocked) h.statements
  refine ⟨m', ht.trans ht', ?_⟩
  rw [hrun, hrun', h.problems, executeUnlessError_eq]
  exact if_neg (by simpa [Reporter.reportAll] using hs)

end StandsFor

end LoxLang
