import LoxLang.Proofs.Marks

/-!
# Programs from documents

A program that was written as a document and read again is the program that was written: nothing
that the parser builds is lost, neither a form nor a token nor a literal (`portable_of_parse`).
Numbering the literals changes none of it either, as all of them hold values of the language. So
running the document shows the same as running the source (`runDocument_dump`).
-/

namespace LoxLang

/-! ## Fields -/

namespace Bindings

variable {κ α : Type} [BEq κ] [LawfulBEq κ]

theorem entry?_zip_of_notMem {key : κ} :
    ∀ {keys : List κ} (values : List α), key ∉ keys → entry? key (keys.zip values) = none
  | [], _, _ => rfl
  | _ :: _, [], _ => rfl
  | k :: keys, _ :: values, h => by
    rw [List.mem_cons, not_or] at h
    rw [List.zip_cons_cons, entry?, if_neg (by simpa using Ne.symm h.1), entry?_zip_of_notMem _ h.2]

/-- Among different keys each one leads to its own value. -/
theorem entry?_zip {key : κ} {value : α} :
    ∀ {keys : List κ} {values : List α}, keys.Nodup → (key, value) ∈ keys.zip values →
      entry? key (keys.zip values) = some value
  | k :: keys, v :: values, hkeys, h => by
    rw [List.nodup_cons] at hkeys
    rw [List.zip_cons_cons, List.mem_cons] at h
    rw [List.zip_cons_cons, entry?]
    rcases h with h | h
    · cases h
      rw [if_pos (by simp)]
    · have hmem := (List.of_mem_zip h).1
      rw [if_neg (by rintro hk; exact hkeys.1 (eq_of_beq hk ▸ hmem)), entry?_zip hkeys.2 h]

end Bindings

namespace Tree

theorem Form.slots_nodup (form : Form) : form.slots.Nodup := by
  cases form <;> decide

/-- No slot has the name of a field that tells the form or that tells a token. -/
theorem Form.notMem_slots (form : Form) : "type" ∉ form.slots ∧ "__token__" ∉ form.slots := by
  cases form <;> decide

theorem entry?_loadFields (name : String) :
    ∀ fields, Bindings.entry? name (loadFields fields) = (Bindings.entry? name fields).map load
  | [] => rfl
  | (key, json) :: rest => by
    rw [loadFields, Bindings.entry?, Bindings.entry?, entry?_loadFields name rest]
    split <;> rfl

/-- The slots are read in order, each from its own field. -/
theorem pickSlots_loadFields {fields : List (String × Json)} {docs : List Json} {trees : List Tree}
    (hload : List.Forall₂ (fun doc t => load doc = .ok t) docs trees) :
    ∀ {names : List String}, names.length = docs.length →
      (∀ name doc, (name, doc) ∈ names.zip docs → Bindings.entry? name fields = some doc) →
      pickSlots (loadFields fields) names = .ok trees := by
  induction hload with
  | nil =>
    intro names hlength _
    rw [List.length_eq_zero_iff.1 hlength]
    rfl
  | @cons doc t docs trees ht _ ih =>
    rintro (_ | ⟨name, names⟩) hlength hfields
    · cases hlength
    · have hname := hfields name doc (by simp)
      have hrest : pickSlots (loadFields fields) names = .ok trees :=
        ih (by simpa using hlength) fun n d h => hfields n d (List.mem_cons_of_mem _ h)
      rw [pickSlots, entry?_loadFields, hname, Option.map_some, Option.getD_some, ht, hrest]
      rfl

/-- Reading the document of a form gives the form with what reading its slots gives. -/
theorem load_formDocument (form : Form) {docs : List Json} {trees : List Tree}
    (hlength : form.slots.length = docs.length)
    (hload : List.Forall₂ (fun doc t => load doc = .ok t) docs trees) :
    load (formDocument form docs) = .ok (ofSlots form trees) := by
  obtain ⟨htype, htoken⟩ := form.notMem_slots
  have hform : loadForm (some (.str form.name)) = .ok form := by
    cases form <;> rfl
  have hfields (name : String) (doc : Json) (h : (name, doc) ∈ form.slots.zip docs) :
      Bindings.entry? name (("type", .str form.name) :: form.slots.zip docs) = some doc := by
    have hne : ("type" == name) = false :=
      beq_eq_false_iff_ne.2 fun he => htype (he ▸ (List.of_mem_zip h).1)
    rw [Bindings.entry?, hne]
    exact Bindings.entry?_zip form.slots_nodup h
  have hpick := pickSlots_loadFields hload hlength hfields
  have hkind : Bindings.entry? "__token__" (("type", .str form.name) :: form.slots.zip docs) =
      none := Bindings.entry?_zip_of_notMem docs htoken
  rw [formDocument, load, hkind]
  dsimp only
  rw [Bindings.entry?, if_pos (by simp), hform]
  change (pickSlots _ form.slots >>= fun slots => Except.ok (ofSlots form slots)) = _
  rw [hpick]
  rfl

/-- The document of a token is read as the token. -/
theorem load_tokenDocument (t : Token) : load (tokenDocument t) = .ok (token t) := by
  have hkind : loadKind (.str t.kind.name) = .ok t.kind := by
    cases t.kind <;> rfl
  have htoken : loadToken (.str t.kind.name) [("__token__", .str t.kind.name), ("lexeme", t.lexeme),
      ("literal", t.literal), ("line", t.line)] = .ok t := by
    rw [loadToken, hkind]
    rfl
  rw [tokenDocument, load]
  change (loadToken (.str t.kind.name) _).map token = _
  rw [htoken]
  rfl

/-! ## Portable trees -/

/-- Reading the document of the tree gives the tree again, and none of its literals is numbered. -/
structure Portable (t : Tree) : Prop where
  load_dump : load t.dump = .ok t
  numbered : t.numbered = pure t

/-- The document of a new form, and the form that is made of what its slots hold. -/
theorem dump_of_isNew {t : Tree} (h : t.isNew = true) :
    ∃ form, t.dump = formDocument form (t.children.map dump) ∧
      form.slots.length = t.children.length ∧ ofSlots form t.children = t := by
  cases t with
  | scalar | list | token | object | literal => cases h
  | ident _ depth | assign _ _ depth | thisRef _ depth | superRef _ _ depth =>
    cases depth with
    | some => cases h
    | none => exact ⟨_, rfl, rfl, rfl⟩
  | _ => exact ⟨_, rfl, rfl, rfl⟩

theorem dumps_eq (ts : List Tree) : dumps ts = ts.map dump := by
  induction ts with
  | nil => rfl
  | cons t ts ih => rw [dumps, ih, List.map_cons]

theorem Portable.loads {ts : List Tree} (h : ∀ t ∈ ts, t.Portable) : loads (dumps ts) = .ok ts := by
  induction ts with
  | nil => rfl
  | cons t ts ih =>
    obtain ⟨ht, hts⟩ := List.forall_mem_cons.1 h
    rw [dumps, Tree.loads, ht.load_dump, ih hts]
    rfl

theorem Portable.numberedAll {ts : List Tree} (h : ∀ t ∈ ts, t.Portable) :
    numberedAll ts = pure ts := by
  induction ts with
  | nil => rfl
  | cons t ts ih =>
    obtain ⟨ht, hts⟩ := List.forall_mem_cons.1 h
    rw [Tree.numberedAll, ht.numbered, ih hts]
    rfl

/-- Each step of building a tree keeps it portable. -/
theorem builds_portable : Builds Portable where
  null := ⟨rfl, rfl⟩
  literal s hs := by
    have hslots : List.Forall₂ (fun doc t => load doc = .ok t) [.scalar s] [scalar s] :=
      .cons rfl .nil
    refine ⟨load_formDocument .literal rfl hslots, ?_⟩
    rw [Tree.numbered, hs]
    rfl
  list items h := by
    constructor
    · rw [dump, load, Portable.loads h]
      rfl
    · rw [Tree.numbered, Portable.numberedAll h]
      rfl
  form t ht h := by
    constructor
    · obtain ⟨form, hdump, hlength, hform⟩ := dump_of_isNew ht
      have hslots :
          List.Forall₂ (fun doc u => load doc = .ok u) (t.children.map dump) t.children := by
        rw [List.forall₂_map_left_iff, List.forall₂_same]
        exact fun u hu => (h u hu).load_dump
      rw [hdump, load_formDocument form (by simpa using hlength) hslots, hform]
    · have hn : ∀ u ∈ t.children, u.numbered = pure u := fun u hu => (h u hu).numbered
      cases t with
      | scalar | list | token | object | literal => cases ht
      | _ =>
        simp only [children, List.forall_mem_cons] at hn
        simp [Tree.numbered, hn]

end Tree

open LoxLang.Tree (Portable)

/-- What was parsed is portable. -/
theorem portable_of_parse {source : String} {statements : List Tree}
    (hp : parse? (scan source).finish = some ⟨statements, []⟩) :
    (Tree.list statements).Portable :=
  Tree.builds_portable.list _ (builds_parse Tree.builds_portable hp fun t _ =>
    ⟨Tree.load_tokenDocument t, rfl⟩)

/-! ## Runs -/

namespace Session

theorem load_dump {t : Tree} (h : t.Portable) (s : Session) : load t.dump s = .ok t s := by
  unfold load
  rw [h.load_dump, bind_of_ok (show (liftLoad (.ok t) : Step Tree) s = .ok t s from rfl)]
  rw [bind_of_ok (show (get : Step Session) s = .ok s s from rfl), h.numbered]
  rfl

end Session

open Session in
/-- Running the document of a program shows the same as running its source. -/
theorem runDocument_dump (detail : Nat) (clock : Clock) {source : String} {statements : List Tree}
    (hs : (scan source).problems = #[])
    (hp : parse? (scan source).finish = some ⟨statements, []⟩) :
    ShowSame (run source) (runDocument (Tree.list statements).dump)
      (start detail clock) (start detail clock) := by
  obtain ⟨trees, htrees, hstatic, hfine⟩ := resolve_fine hp (wellFormed_of_parse hp)
  obtain ⟨m₁, ht₁, hrun⟩ := run_eq (s := start detail clock) rfl rfl hs hp
  obtain ⟨m₂, ht₂, hrun₂⟩ := resolve_execute_eq (s := ⟨m₁, {}⟩) ht₁.blocked htrees
  obtain ⟨m, ht, hrun'⟩ := resolve_execute_eq (s := start detail clock) rfl htrees
  have hdocument : runDocument (Tree.list statements).dump (start detail clock) =
      (resolveNames statements >>= executeUnlessError) (start detail clock) := by
    unfold runDocument
    rw [bind_of_ok (load_dump (portable_of_parse hp) _)]
    rfl
  -- both runs execute the same trees, on machines that differ only in their traces
  have hlike : RunsAlike (.ofLines Eq) (executeUnlessError trees) (executeUnlessError trees)
      ⟨m₂, Reporter.reportAll {} (resolve statements).problems⟩
      ⟨m, Reporter.reportAll {} (resolve statements).problems⟩ := by
    have hm := (machineLike_initial (.ofLines Eq) detail clock).traced (ht₁.trans ht₂) ht
    refine runsAlike_executeUnlessError (fun he => ?_) ⟨hm, .refl _ fun _ => rfl⟩
      (ht₁.trans ht₂).current_eq ht.current_eq
    have hnil := (Reporter.eq_nil_of_hadError hstatic he).2
    rw [List.forall₂_same]
    exact fun t ht => statementLike_refl (wellFormed_of_fine (hfine hnil) t ht)
  have hsame := hlike.showSame fun _ _ => Eq.symm
  unfold ShowSame at hsame ⊢
  rw [hrun.trans hrun₂, hdocument.trans hrun']
  exact hsame

/-- An object with a field, and an error on the second line. -/
def failingOperand : String :=
  "class A \x7b init() \x7b this.n = 1.5; \x7d \x7d\nprint A().n - \"\";"

theorem runDocument_dump_failingOperand :
    (stateAfter (Session.run failingOperand) (.start 0 (.still 0))).reporter.messages =
      ["Operands must be numbers.\n[line 2]"] ∧
    ShowSame (Session.run failingOperand)
      (Session.runDocument (Tree.list
        ((parse? (scan failingOperand).finish).getD {}).statements).dump)
      (.start 0 (.still 0)) (.start 0 (.still 0)) :=
  ⟨by decide +kernel, runDocument_dump 0 (.still 0) (by decide +kernel)
    (parse_eq (by decide +kernel))⟩

end LoxLang
