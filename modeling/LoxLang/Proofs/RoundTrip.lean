import LoxLang.Proofs.Documents

/-!
# Documents of trees, back and forth

Reading the document of a tree gives the tree again, if the tree was itself read from a document or
comes from the parser, with problems or without (`Received`). So such trees are equal if their
documents are. Reading a document and writing the tree tidies the document: `Tidied` says of two
documents that the second is the first without the fields that nothing reads, and with a null for
each slot that has no field. A document can be read if and only if it has a tidied form, which is
the document of what is read, and tidying it once more changes nothing (`load_dump_inverse`).
-/

namespace LoxLang

/-- Induction on the parts of a document. -/
theorem Json.induction {P : Json → Prop} (scalar : ∀ s, P (.scalar s))
    (array : ∀ items, (∀ json ∈ items, P json) → P (.array items))
    (object : ∀ fields, (∀ key json, (key, json) ∈ fields → P json) → P (.object fields)) :
    ∀ json, P json
  | .scalar s => scalar s
  | .array items => array items fun json _ => Json.induction scalar array object json
  | .object fields => object fields fun _ json _ => Json.induction scalar array object json
termination_by json => sizeOf json
decreasing_by
  · have := List.sizeOf_lt_of_mem ‹json ∈ items›
    simp only [Json.array.sizeOf_spec]
    omega
  · have := List.sizeOf_lt_of_mem ‹(_, json) ∈ fields›
    simp only [Prod.mk.sizeOf_spec] at this
    simp only [Json.object.sizeOf_spec]
    omega

mutual

/-- There is no object in the document. -/
def Json.isPlain : Json → Bool
  | .scalar _ => true
  | .array items => arePlain items
  | .object _ => false

/-- There is no object in the documents. -/
def Json.arePlain : List Json → Bool
  | [] => true
  | json :: rest => json.isPlain && arePlain rest

end

section Forall₂

variable {α β γ : Type} {R : α → β → Prop}

variable {as : List α}

theorem forall_mem_of_forall₂ {P : β → Prop} {bs : List β} (h : List.Forall₂ R as bs)
    (hP : ∀ a ∈ as, ∀ b, R a b → P b) : ∀ b ∈ bs, P b := by
  induction h with
  | nil => exact nofun
  | cons hab _ ih =>
    obtain ⟨ha, has⟩ := List.forall_mem_cons.1 hP
    exact List.forall_mem_cons.2 ⟨ha _ hab, ih has⟩

theorem exists_map_of_forall₂ {f : β → γ} {cs : List γ}
    (h : List.Forall₂ (fun a c => ∃ b, R a b ∧ f b = c) as cs) :
    ∃ bs, List.Forall₂ R as bs ∧ bs.map f = cs := by
  induction h with
  | nil => exact ⟨[], .nil, rfl⟩
  | cons hac _ ih =>
    obtain ⟨b, hab, rfl⟩ := hac
    obtain ⟨bs, hbs, rfl⟩ := ih
    exact ⟨b :: bs, .cons hab hbs, rfl⟩

end Forall₂

theorem Bindings.mem_of_entry_eq {κ α : Type} [BEq κ] [LawfulBEq κ] {key : κ} {value : α} :
    ∀ {fields : List (κ × α)}, entry? key fields = some value → (key, value) ∈ fields
  | [], h => by cases h
  | (k, v) :: rest, h => by
    rw [Bindings.entry?] at h
    split at h
    · next hk =>
      cases h
      rw [eq_of_beq hk]
      exact List.mem_cons_self
    · exact List.mem_cons_of_mem _ (mem_of_entry_eq h)

variable {s : String} {kind : Token.Kind} {t : Tree}

theorem Token.Kind.name_of_ofName? (h : Token.Kind.ofName? s = some kind) : kind.name = s := by
  unfold Token.Kind.ofName? at h
  have hname := List.find?_some h
  exact eq_of_beq hname

namespace Tree

variable {form : Form} {fields : List (String × Json)} {json json' : Json}

theorem Form.name_of_ofName? (h : Form.ofName? s = some form) : form.name = s := by
  unfold Form.ofName? at h
  have hname := List.find?_some h
  exact eq_of_beq hname

/-! ## What is read -/

theorem except_bind_eq_ok {ε α β : Type} {x : Except ε α} {f : α → Except ε β} {b : β} :
    (x >>= f) = .ok b ↔ ∃ a, x = .ok a ∧ f a = .ok b := by
  cases x with
  | error e => simp [bind, Except.bind]
  | ok a => simp [bind, Except.bind]

/-- Documents are loaded one by one. -/
theorem loads_eq_ok_iff {items : List Json} {trees : List Tree} :
    loads items = .ok trees ↔ List.Forall₂ (fun json t => load json = .ok t) items trees := by
  induction items generalizing trees with
  | nil =>
    rw [List.forall₂_nil_left_iff, loads, Except.ok.injEq]
    exact eq_comm
  | cons json items ih =>
    rw [List.forall₂_cons_left_iff, loads]
    simp only [except_bind_eq_ok, ih, pure, Except.pure, Except.ok.injEq]
    constructor
    · rintro ⟨t, ht, ts, hts, rfl⟩
      exact ⟨t, ts, ht, hts, rfl⟩
    · rintro ⟨t, ts, ht, hts, rfl⟩
      exact ⟨t, ht, ts, hts, rfl⟩

/-- The document of a slot, which is null if there is no field for it. -/
def slotDocument (fields : List (String × Json)) (name : String) : Json :=
  (Bindings.entry? name fields).getD .null

theorem load_slotDocument (fields : List (String × Json)) (name : String) :
    load (slotDocument fields name) =
      (Bindings.entry? name (loadFields fields)).getD (.ok null) := by
  rw [entry?_loadFields, slotDocument]
  cases Bindings.entry? name fields <;> rfl

/-- The slots are read one after another, as the items of a list are. -/
theorem pickSlots_eq_loads (fields : List (String × Json)) (names : List String) :
    pickSlots (loadFields fields) names = loads (names.map (slotDocument fields)) := by
  induction names with
  | nil => rfl
  | cons name names ih => rw [pickSlots, ih, List.map_cons, loads, load_slotDocument]

/-- What reading the documents of the slots gives is a tree for each slot. -/
theorem length_of_loads {slots : List Tree} (h : List.Forall₂ (fun json t => load json = .ok t)
      (form.slots.map (slotDocument fields)) slots) : slots.length = form.slots.length := by
  simpa using h.length_eq.symm

/-- A form is loaded from its name only. -/
theorem loadForm_eq_ok_iff {name : Option Json} :
    loadForm name = .ok form ↔ name = some (.str form.name) := by
  constructor
  · intro h
    unfold loadForm at h
    split at h
    · next s =>
      split at h
      · next f hf =>
        cases h
        rw [Form.name_of_ofName? hf]
        rfl
      · cases h
    all_goals cases h
  · rintro rfl
    cases form <;> rfl

/-- A kind of token is loaded from its name only. -/
theorem loadKind_eq_ok_iff {name : Json} : loadKind name = .ok kind ↔ name = .str kind.name := by
  constructor
  · intro h
    unfold loadKind at h
    split at h
    · next s =>
      split at h
      · next k hk =>
        cases h
        rw [Token.Kind.name_of_ofName? hk]
        rfl
      · cases h
    all_goals cases h
  · rintro rfl
    cases kind <;> rfl

theorem needField_eq_ok_iff {key : String} :
    needField fields key = .ok json ↔ Bindings.entry? key fields = some json := by
  unfold needField
  cases Bindings.entry? key fields <;> simp

/-- A token is loaded from its kind and its three fields. -/
theorem loadToken_eq_ok_iff {name : Json} {a : Token} :
    loadToken name fields = .ok a ↔ name = .str a.kind.name ∧
      Bindings.entry? "lexeme" fields = some a.lexeme ∧
      Bindings.entry? "literal" fields = some a.literal ∧
      Bindings.entry? "line" fields = some a.line := by
  simp only [← needField_eq_ok_iff, ← loadKind_eq_ok_iff, loadToken]
  constructor
  · intro h
    obtain ⟨kind, hk, h⟩ := except_bind_eq_ok.1 h
    obtain ⟨lexeme, hl, h⟩ := except_bind_eq_ok.1 h
    obtain ⟨value, hv, h⟩ := except_bind_eq_ok.1 h
    obtain ⟨line, hn, h⟩ := except_bind_eq_ok.1 h
    cases h
    exact ⟨hk, hl, hv, hn⟩
  · rintro ⟨hk, hl, hv, hn⟩
    rw [hk, hl, hv, hn]
    rfl

/-- How a document is read, by its kind: an object with the mark of tokens is a token, and any other
object is a form with a tree for each of its slots. -/
theorem load_eq_ok_iff : load json = .ok t ↔
    match json with
    | .scalar s => t = scalar s
    | .array items => ∃ trees, t = list trees ∧
        List.Forall₂ (fun json t => load json = .ok t) items trees
    | .object fields =>
      (∃ a, t = token a ∧ Bindings.entry? "__token__" fields = some (.str a.kind.name) ∧
        Bindings.entry? "lexeme" fields = some a.lexeme ∧
        Bindings.entry? "literal" fields = some a.literal ∧
        Bindings.entry? "line" fields = some a.line) ∨
      (∃ form slots, t = ofSlots form slots ∧ Bindings.entry? "__token__" fields = none ∧
        Bindings.entry? "type" fields = some (.str form.name) ∧
        List.Forall₂ (fun json t => load json = .ok t)
          (form.slots.map (slotDocument fields)) slots) := by
  cases json with
  | scalar s =>
    rw [load, Except.ok.injEq]
    exact eq_comm
  | array items =>
    simp only [← loads_eq_ok_iff, load, except_bind_eq_ok, pure, Except.pure, Except.ok.injEq]
    exact exists_congr fun trees => and_comm.trans (and_congr_left' eq_comm)
  | object fields =>
    rw [load]
    dsimp only
    cases hm : Bindings.entry? "__token__" fields with
    | some mark =>
      simp only [← loadToken_eq_ok_iff, Option.some.injEq, reduceCtorEq, false_and, and_false,
        exists_false, or_false]
      cases loadToken mark fields with
      | error e => simp [Except.map]
      | ok a => simp [Except.map, eq_comm]
    | none =>
      simp only [pickSlots_eq_loads, ← loads_eq_ok_iff, ← loadForm_eq_ok_iff, reduceCtorEq,
        false_and, and_false, exists_false, false_or, true_and, except_bind_eq_ok, pure,
        Except.pure, Except.ok.injEq]
      constructor
      · rintro ⟨form, hform, slots, hslots, rfl⟩
        exact ⟨form, slots, rfl, hform, hslots⟩
      · rintro ⟨form, slots, rfl, hform, hslots⟩
        exact ⟨form, hform, slots, hslots, rfl⟩

/-- The document of a form with given slots. -/
theorem dump_ofSlots {slots : List Tree} (h : slots.length = form.slots.length) :
    (ofSlots form slots).dump = formDocument form (slots.map dump) := by
  cases form
  all_goals
    rcases slots with _ | ⟨a, _ | ⟨b, _ | ⟨c, _ | ⟨d, rest⟩⟩⟩⟩
    all_goals first | rfl | simp [Form.slots] at h

/-! ## Round trips -/

/-- A property of the fields of an object is one of the documents of its slots, if null has it. -/
theorem forall_slotDocument {P : Json → Prop} (hnull : P .null)
    (h : ∀ key json, (key, json) ∈ fields → P json) (name : String) :
    P (slotDocument fields name) := by
  rw [slotDocument]
  cases he : Bindings.entry? name fields with
  | none => exact hnull
  | some json => exact h name json (Bindings.mem_of_entry_eq he)

/-- What was read from a document is read again from its own document. -/
theorem load_dump_of_load (json : Json) : ∀ t, load json = .ok t → load t.dump = .ok t := by
  have hagain {jsons : List Json} {trees : List Tree}
      (h : List.Forall₂ (fun json t => load json = .ok t) jsons trees)
      (ih : ∀ json ∈ jsons, ∀ t, load json = .ok t → load t.dump = .ok t) :
      List.Forall₂ (fun json t => load json = .ok t) (trees.map dump) trees := by
    rw [List.forall₂_map_left_iff, List.forall₂_same]
    exact forall_mem_of_forall₂ h ih
  induction json using Json.induction with
  | scalar s =>
    rintro _ ⟨⟩
    rfl
  | array items ih =>
    intro t h
    obtain ⟨trees, rfl, hload⟩ := load_eq_ok_iff.1 h
    rw [load_eq_ok_iff, dump, dumps_eq]
    exact ⟨trees, rfl, hagain hload ih⟩
  | object fields ih =>
    intro t h
    obtain ⟨a, rfl, -⟩ | ⟨form, slots, rfl, -, -, hload⟩ := load_eq_ok_iff.1 h
    · exact load_tokenDocument a
    · have hlength := length_of_loads hload
      rw [dump_ofSlots hlength]
      refine load_formDocument form (by simp [hlength]) (hagain hload ?_)
      refine List.forall_mem_map.2 fun name _ => forall_slotDocument ?_ ih name
      rintro _ ⟨⟩
      rfl

mutual

theorem load_dump_ofJson : ∀ {json : Json}, json.isPlain = true →
    load (ofJson json).dump = .ok (ofJson json)
  | .scalar _, _ => rfl
  | .array items, h => by
    rw [Json.isPlain] at h
    rw [ofJson, dump, load, loads_dumps_ofJsons h]
    rfl

theorem loads_dumps_ofJsons : ∀ {items : List Json}, Json.arePlain items = true →
    loads (dumps (ofJsons items)) = .ok (ofJsons items)
  | [], _ => rfl
  | json :: items, h => by
    rw [Json.arePlain, Bool.and_eq_true] at h
    rw [ofJsons, dumps, loads, load_dump_ofJson h.1, loads_dumps_ofJsons h.2]
    rfl

end

/-- Each step of building a tree keeps it readable. -/
theorem builds_load_dump : Builds fun t => load t.dump = .ok t where
  null := rfl
  literal s _ := load_formDocument .literal rfl (.cons (load.eq_1 s) .nil)
  list items h := by
    rw [load_eq_ok_iff, dump, dumps_eq]
    refine ⟨items, rfl, ?_⟩
    rw [List.forall₂_map_left_iff, List.forall₂_same]
    exact h
  form t ht h := by
    obtain ⟨form, hdump, hlength, hform⟩ := dump_of_isNew ht
    have hslots : List.Forall₂ (fun doc u => load doc = .ok u)
        (t.children.map dump) t.children := by
      rw [List.forall₂_map_left_iff, List.forall₂_same]
      exact h
    rw [hdump, load_formDocument form (by simpa using hlength) hslots, hform]

/-- The trees that come from a document, and those that come from the parser, whatever it reports.
The literals of the tokens that are parsed hold no objects. -/
inductive Received : Tree → Prop where
  | loaded {json : Json} {t : Tree} : load json = .ok t → Received t
  | parsed {tokens : List Token} {parsed : Parsed} : (∀ a ∈ tokens, a.literal.isPlain = true) →
      parse? tokens = some parsed → Received (.list parsed.statements)

theorem Received.load_dump (h : Received t) : load t.dump = .ok t := by
  cases h with
  | @loaded json _ h => exact load_dump_of_load json t h
  | @parsed tokens parsed hplain h =>
    refine builds_load_dump.list _ fun t ht => ?_
    refine (shaped_parse h t ht).builds builds_load_dump (fun a _ _ => load_tokenDocument a) ?_
    exact fun a ha => load_formDocument .literal rfl (.cons (load_dump_ofJson (hplain a ha)) .nil)

/-! ## Tidied documents -/

/-- The second document is the first one without the fields that are not read, and with a null in
each slot that has no field. The name of a form and the fields of a token stay what they are. -/
inductive Tidied : Json → Json → Prop where
  | scalar (s : Scalar) : Tidied (.scalar s) (.scalar s)
  | array {items items' : List Json} : List.Forall₂ Tidied items items' →
      Tidied (.array items) (.array items')
  | token {fields : List (String × Json)} (kind : Token.Kind) {lexeme literal line : Json} :
      Bindings.entry? "__token__" fields = some (.str kind.name) →
      Bindings.entry? "lexeme" fields = some lexeme →
      Bindings.entry? "literal" fields = some literal → Bindings.entry? "line" fields = some line →
      Tidied (.object fields) (.object [("__token__", .str kind.name), ("lexeme", lexeme),
        ("literal", literal), ("line", line)])
  | form {fields : List (String × Json)} (form : Form) {slots : List Json} :
      Bindings.entry? "__token__" fields = none →
      Bindings.entry? "type" fields = some (.str form.name) →
      List.Forall₂ Tidied
        (form.slots.map fun name => (Bindings.entry? name fields).getD .null) slots →
      Tidied (.object fields) (.object (("type", .str form.name) :: form.slots.zip slots))

/-- A document that loads is dumped as its tidied form. -/
theorem tidied_of_load (json : Json) : ∀ t, load json = .ok t → Tidied json t.dump := by
  have htidied {jsons : List Json} {trees : List Tree}
      (h : List.Forall₂ (fun json t => load json = .ok t) jsons trees)
      (ih : ∀ json ∈ jsons, ∀ t, load json = .ok t → Tidied json t.dump) :
      List.Forall₂ Tidied jsons (trees.map dump) := by
    rw [List.forall₂_map_right_iff]
    exact ((List.forall₂_and_left _ _).2 ⟨ih, h⟩).imp fun _ _ ⟨ih, h⟩ => ih _ h
  induction json using Json.induction with
  | scalar s =>
    rintro _ ⟨⟩
    exact .scalar s
  | array items ih =>
    intro t h
    obtain ⟨trees, rfl, hload⟩ := load_eq_ok_iff.1 h
    rw [dump, dumps_eq]
    exact .array (htidied hload ih)
  | object fields ih =>
    intro t h
    obtain ⟨a, rfl, hkind, hlexeme, hliteral, hline⟩ | ⟨form, slots, rfl, hmark, htype, hload⟩ :=
      load_eq_ok_iff.1 h
    · exact .token a.kind hkind hlexeme hliteral hline
    · rw [dump_ofSlots (length_of_loads hload)]
      refine .form form hmark htype (htidied hload ?_)
      refine List.forall_mem_map.2 fun name _ => forall_slotDocument ?_ ih name
      rintro _ ⟨⟩
      exact .scalar .nil

/-- A document that can be tidied loads. -/
theorem exists_load_of_tidied (json : Json) :
    ∀ json', Tidied json json' → ∃ t, load json = .ok t ∧ t.dump = json' := by
  have hload {jsons jsons' : List Json} (h : List.Forall₂ Tidied jsons jsons')
      (ih : ∀ json ∈ jsons, ∀ json', Tidied json json' → ∃ t, load json = .ok t ∧ t.dump = json') :
      ∃ trees, List.Forall₂ (fun json t => load json = .ok t) jsons trees ∧
        trees.map dump = jsons' :=
    exists_map_of_forall₂ (((List.forall₂_and_left _ _).2 ⟨ih, h⟩).imp fun _ _ ⟨ih, h⟩ => ih _ h)
  induction json using Json.induction with
  | scalar s =>
    rintro _ ⟨⟩
    exact ⟨.scalar s, rfl, rfl⟩
  | array items ih =>
    rintro _ (_ | hitems)
    obtain ⟨trees, htrees, rfl⟩ := hload hitems ih
    exact ⟨.list trees, load_eq_ok_iff.2 ⟨trees, rfl, htrees⟩, by rw [dump, dumps_eq]⟩
  | object fields ih =>
    intro json' h
    cases h with
    | @token _ kind lexeme literal line hkind hlexeme hliteral hline =>
      exact ⟨.token ⟨kind, lexeme, literal, line⟩,
        load_eq_ok_iff.2 (.inl ⟨_, rfl, hkind, hlexeme, hliteral, hline⟩), rfl⟩
    | @form _ form slots hmark htype hslots =>
      obtain ⟨trees, htrees, rfl⟩ := hload hslots <| by
        refine List.forall_mem_map.2 fun name _ => forall_slotDocument ?_ ih name
        rintro _ ⟨⟩
        exact ⟨.null, rfl, rfl⟩
      exact ⟨ofSlots form trees, load_eq_ok_iff.2 (.inr ⟨form, trees, rfl, hmark, htype, htrees⟩),
        dump_ofSlots (length_of_loads htrees)⟩

/-- The document of what is read from a document. -/
def tidy (json : Json) : Except LoadError Json :=
  (load json).map dump

theorem tidy_eq_ok_iff : tidy json = .ok json' ↔ ∃ t, load json = .ok t ∧ t.dump = json' := by
  unfold tidy
  cases load json <;> simp [Except.map]

theorem tidy_iff_tidied : tidy json = .ok json' ↔ Tidied json json' := by
  rw [tidy_eq_ok_iff]
  constructor
  · rintro ⟨t, h, rfl⟩
    exact tidied_of_load json t h
  · exact exists_load_of_tidied json json'

theorem tidy_tidy (h : tidy json = .ok json') : tidy json' = .ok json' := by
  obtain ⟨t, ht, rfl⟩ := tidy_eq_ok_iff.1 h
  exact tidy_eq_ok_iff.2 ⟨t, load_dump_of_load json t ht, rfl⟩

end Tree

open LoxLang.Tree (Received Tidied tidy)

/-- Every source is parsed, and what the parser gives is read again from its document. -/
theorem received_source (source : String) : ∃ parsed,
    parse? (scan source).finish = some parsed ∧ Received (.list parsed.statements) := by
  obtain ⟨parsed, hparsed, -⟩ := parse_scan source
  refine ⟨parsed, hparsed, .parsed (fun a ha => ?_) hparsed⟩
  obtain ⟨s, hs, -⟩ := scan_plain source a ha
  rw [hs]
  rfl

/-- Reading and writing documents are inverse on the trees that are read and parsed. Of a document
that is read only what no slot takes is lost, and it is lost at once. -/
theorem load_dump_inverse :
    (∀ t, Received t → Tree.load t.dump = .ok t) ∧
    (∀ t u, Received t → Received u → t.dump = u.dump → t = u) ∧
    (∀ source, ∃ parsed, parse? (scan source).finish = some parsed ∧
      Received (.list parsed.statements)) ∧
    (∀ json json', tidy json = .ok json' ↔ Tidied json json') ∧
    ∀ json json', tidy json = .ok json' → tidy json' = .ok json' := by
  refine ⟨fun t ht => ht.load_dump, fun t u ht hu h => ?_, received_source,
    fun _ _ => Tree.tidy_iff_tidied, fun _ _ => Tree.tidy_tidy⟩
  have hload := ht.load_dump
  rw [h, hu.load_dump] at hload
  exact (Except.ok.inj hload).symm

/-- A form with one slot missing and a field too many, around a token whose literal is an object
with the name of a form. -/
def untidyUnary : Json :=
  .object [("depth", .int 1), ("right", .array [.object [("line", .null), ("type", .str "Block"),
    ("__token__", .str "MINUS"), ("lexeme", .array []),
    ("literal", .object [("type", .str "Block")])]]), ("type", .str "Unary")]

/-- The same form with its slots in order and nothing else. -/
def tidyUnary : Json :=
  .object [("type", .str "Unary"), ("operator", .null), ("right", .array [.object [
    ("__token__", .str "MINUS"), ("lexeme", .array []),
    ("literal", .object [("type", .str "Block")]), ("line", .null)]])]

theorem load_dump_inverse_unary :
    tidy untidyUnary = .ok tidyUnary ∧ tidy tidyUnary = .ok tidyUnary ∧
      Tidied untidyUnary tidyUnary :=
  have h : tidy untidyUnary = .ok tidyUnary := by rfl
  ⟨h, load_dump_inverse.2.2.2.2 _ _ h, (load_dump_inverse.2.2.2.1 _ _).1 h⟩

end LoxLang
