import LoxLang.Proofs.Writing

/-!
# Static meaning

What the resolver finds is what stands in the text. The depth that it gives a use is the number of
the first scope around the use that has the name (`resolve_lexicalDepths`), where the scopes are
read off the trees around the use by `Surroundings.lexicalScopes`. Its messages are the violations
of the static rules, each at its token and in the order in which the trees are read
(`resolve_reports_violations`).

Trees that are too deep to be walked are reported as such. With room in proportion to the size of
the program there are none.
-/

namespace LoxLang

open Resolver LoxLang.Parser

/-! ## Lexical depths -/

/-- The use right at a tree. -/
def Tree.use? : Tree → Option Tree.Use
  | ident name depth => some ⟨.ident, name, depth⟩
  | assign name _ depth => some ⟨.assign, name, depth⟩
  | thisRef keyword depth => some ⟨.thisRef, keyword, depth⟩
  | superRef keyword _ depth => some ⟨.superRef, keyword, depth⟩
  | _ => none

/-- The scope has the name. -/
def HasName (names : List Name) (key : Name) : Prop :=
  names.any (· == key) = true

/-- The scope with the given number is the first one that has the name. -/
def FirstWith (scopes : List (List Name)) (key : Name) (depth : Nat) : Prop :=
  (∃ names, scopes[depth]? = some names ∧ HasName names key) ∧
    ∀ i < depth, ∀ names, scopes[i]? = some names → ¬HasName names key

/-- The depth of the use where it stands. The keyword `this` has none outside of all classes. All
other uses have the number of the first scope with the name, and none if no scope has it. -/
def ResolvesTo (above : Surroundings) (use : Tree.Use) (depth : Option Nat) : Prop :=
  if use.form = .thisRef ∧ above.innermost? Tree.isClass = none then depth = none
  else ∃ key, use.name.asName = .ok key ∧
    (∀ d, depth = some d ↔ FirstWith above.lexicalScopes key d) ∧
    (depth = none ↔ ∀ names ∈ above.lexicalScopes, ¬HasName names key)

/-- The use that is visited has its depth in the other tree. -/
def Recorded (root : Tree) (visit : Surroundings × Tree) : Prop :=
  ∀ use, visit.2.use? = some use →
    ∃ depth, (root.at? (visit.1.map Prod.snd)).bind Tree.use? = some { use with depth } ∧
      ResolvesTo visit.1 use depth

/-- Each use of the statements has in the resolved ones its lexical depth. -/
def LexicalDepths (statements resolved : List Tree) : Prop :=
  ∀ visit ∈ (Tree.list statements).visits [], Recorded (.list resolved) visit

/-! ## Scopes and their names -/

/-- The scope binds just the names. -/
def BindsJust (names : List Name) (frame : Frame) : Prop :=
  ∀ key, frame.binds key = names.any (· == key)

section BindsJust

variable {L : List (List Name)} {S : List Frame} {names : List Name} {frame : Frame}

theorem bindsJust_empty : BindsJust [] .empty :=
  fun _ => rfl

theorem bindsJust_single (word : String) :
    BindsJust [.ofText word] (.single (.ofText word) true) := by
  intro key
  rw [Bindings.binds, Bindings.find?_single, List.any_cons, List.any_nil, Bool.or_false]
  cases Name.ofText word == key <;> rfl

theorem findIdx?_of_bindsJust (h : List.Forall₂ BindsJust L S) (key : Name) :
    depthOf? S key = L.findIdx? fun names => names.any (· == key) := by
  induction h with
  | nil => rfl
  | cons hfirst _ ih => rw [depthOf?_cons, List.findIdx?_cons, hfirst key, ih]

/-- One more name is bound, in the innermost scope. -/
theorem bindsJust_bindReady (h : BindsJust names frame) (name : Tree) :
    ∃ frame', (∀ S, bindReady (frame :: S) name = frame' :: S) ∧
      BindsJust (names ++ Surroundings.names [name]) frame' := by
  cases hname : name.asName with
  | error fault =>
    refine ⟨frame, fun S => ?_, ?_⟩
    · simp [bindReady, bindName, hname]
    · simpa [Surroundings.names, hname, Except.toOption] using h
  | ok key =>
    refine ⟨(frame.insert key false).insert key true, fun S => ?_, fun other => ?_⟩
    · simp only [bindReady, bindName, hname]
    · simp only [Bindings.binds_insert, h other, Surroundings.names, List.filterMap_cons, hname,
        Except.toOption, List.filterMap_nil, List.any_append, List.any_cons, List.any_nil,
        Bool.or_false]
      cases key == other <;> simp

/-- The parameters are bound just so, in the innermost scope. -/
theorem bindsJust_foldl_bindReady (params : List Tree) :
    ∀ {names : List Name} {frame : Frame}, BindsJust names frame →
      ∃ frame', (∀ S, params.foldl bindReady (frame :: S) = frame' :: S) ∧
        BindsJust (names ++ Surroundings.names params) frame' := by
  induction params with
  | nil => exact fun {names frame} h => ⟨frame, fun _ => rfl, by simpa [Surroundings.names] using h⟩
  | cons param params ih =>
    intro names frame h
    obtain ⟨frame₁, hbind, h₁⟩ := bindsJust_bindReady h param
    obtain ⟨frame₂, hfold, h₂⟩ := ih h₁
    refine ⟨frame₂, fun S => by rw [List.foldl_cons, hbind, hfold], ?_⟩
    rw [List.append_assoc] at h₂
    simpa only [Surroundings.names, ← List.filterMap_append, List.singleton_append] using h₂

theorem foldl_afterStatement_eq (ts : List Tree) :
    ∀ S, ts.foldl afterStatement S = (ts.filterMap Tree.declared?).foldl bindReady S := by
  induction ts with
  | nil => exact fun _ => rfl
  | cons t ts ih =>
    intro S
    rw [List.foldl_cons, ih, List.filterMap_cons]
    unfold afterStatement
    cases t.declared? <;> rfl

/-- The statements of a scope add the names that they declare. -/
theorem bindsJust_statements (h : BindsJust names frame) (hS : List.Forall₂ BindsJust L S)
    (ts : List Tree) :
    List.Forall₂ BindsJust ((names ++ Surroundings.declaredNames ts) :: L)
      (ts.foldl afterStatement (frame :: S)) := by
  rw [foldl_afterStatement_eq]
  obtain ⟨frame', hfold, h'⟩ := bindsJust_foldl_bindReady (ts.filterMap Tree.declared?) h
  rw [hfold]
  exact .cons h' hS

/-- A name counts as declared before it is ready. -/
theorem bindsJust_bindName {name : Tree} (h : List.Forall₂ BindsJust L (bindReady S name)) :
    List.Forall₂ BindsJust L (bindName S name false) := by
  cases S with
  | nil => exact h
  | cons frame S =>
    cases hname : name.asName with
    | error fault => simpa only [bindReady, bindName, hname] using h
    | ok key =>
      simp only [bindReady, bindName, hname] at h ⊢
      cases h with
      | cons hfirst hrest =>
        refine .cons (fun other => ?_) hrest
        rw [← hfirst other]
        simp only [Bindings.binds_insert]
        cases key == other <;> rfl

end BindsJust

/-! ## Visits -/

/-- The open scopes and the kind of class are those around the place. -/
structure Inside (above : Surroundings) (S : List Frame) (k : InClass) : Prop where
  frames : List.Forall₂ BindsJust above.lexicalScopes S
  inClass : k = classKindAt above

section Visits

variable {root t u : Tree} {above : Surroundings} {S : List Frame} {k : InClass} {i : Nat}

/-- All uses of the tree have their depths. -/
def AllRecorded (root : Tree) (above : Surroundings) (t : Tree) : Prop :=
  ∀ visit ∈ t.visits above, Recorded root visit

theorem recorded_of_none (h : t.use? = none) : Recorded root (above, t) := by
  intro use huse
  cases h.symm.trans huse

theorem allRecorded_none (hv : t.visits above = [(above, t)]) (h : Recorded root (above, t)) :
    AllRecorded root above t := by
  unfold AllRecorded
  rw [hv]
  exact List.forall_mem_singleton.2 h

theorem allRecorded_one {p : Surroundings} (hv : t.visits above = (above, t) :: u.visits p)
    (h : Recorded root (above, t)) (hu : AllRecorded root p u) : AllRecorded root above t := by
  unfold AllRecorded
  rw [hv]
  exact List.forall_mem_cons.2 ⟨h, hu⟩

theorem allRecorded_two {v : Tree} {p q : Surroundings}
    (hv : t.visits above = (above, t) :: (u.visits p ++ v.visits q)) (h : t.use? = none)
    (hu : AllRecorded root p u) (hw : AllRecorded root q v) : AllRecorded root above t := by
  unfold AllRecorded
  rw [hv]
  exact List.forall_mem_cons.2 ⟨recorded_of_none h, List.forall_mem_append.2 ⟨hu, hw⟩⟩

theorem allRecorded_from {place : Nat → Surroundings} : ∀ (ts : List Tree) (i : Nat),
    (∀ j t, ts[j]? = some t → AllRecorded root (place (i + j)) t) →
      ∀ visit ∈ Tree.visitsFrom place i ts, Recorded root visit
  | [], _, _ => nofun
  | t :: ts, i, h => by
    rw [Tree.visitsFrom]
    refine List.forall_mem_append.2 ⟨h 0 t rfl, allRecorded_from ts (i + 1) fun j u hu => ?_⟩
    rw [Nat.add_right_comm]
    exact h (j + 1) u hu

theorem allRecorded_list {items : List Tree}
    (h : ∀ j t, items[j]? = some t → AllRecorded root ((.list items, j) :: above) t) :
    AllRecorded root above (.list items) := by
  unfold AllRecorded
  rw [Tree.visits]
  refine List.forall_mem_cons.2 ⟨recorded_of_none rfl, allRecorded_from items 0 fun j t ht => ?_⟩
  rw [Nat.zero_add]
  exact h j t ht

theorem at?_cons (hat : root.at? (above.map Prod.snd) = some t) (v : Tree)
    (hu : t.children[i]? = some u) : root.at? (((v, i) :: above).map Prod.snd) = some u := by
  show (root.at? (above.map Prod.snd)).bind _ = _
  rw [hat]
  exact hu

/-- The same scopes and the same class are around what a tree holds. -/
theorem Inside.slot (h : Inside above S k) (hc : t.isClass = false)
    (hs : Surroundings.lexicalScopes ((t, i) :: above) = above.lexicalScopes) :
    Inside ((t, i) :: above) S k where
  frames := hs ▸ h.frames
  inClass := by
    rw [h.inClass]
    simp [classKindAt, innermost?_cons, hc]

/-- The depth of a use that is no `this` outside of all classes. -/
theorem Inside.resolvesTo (h : Inside above S k) {use : Tree.Use} {key : Name}
    (hkey : use.name.asName = .ok key)
    (huse : ¬(use.form = .thisRef ∧ above.innermost? Tree.isClass = none)) :
    ResolvesTo above use (depthIn S use.name) := by
  have hdepth : depthIn S use.name =
      above.lexicalScopes.findIdx? fun names => names.any (· == key) := by
    unfold depthIn
    rw [hkey]
    exact findIdx?_of_bindsJust h.frames key
  unfold ResolvesTo
  rw [if_neg huse, hdepth]
  refine ⟨key, hkey, fun d => ?_, ?_⟩
  · rw [List.findIdx?_eq_some_iff_getElem]
    constructor
    · rintro ⟨hd, hhas, hfirst⟩
      refine ⟨⟨_, List.getElem?_eq_getElem hd, hhas⟩, fun i hi names hnames => ?_⟩
      obtain ⟨hlt, rfl⟩ := List.getElem?_eq_some_iff.1 hnames
      simpa [HasName] using hfirst i hi
    · rintro ⟨⟨names, hnames, hhas⟩, hfirst⟩
      obtain ⟨hd, rfl⟩ := List.getElem?_eq_some_iff.1 hnames
      exact ⟨hd, hhas, fun i hi => hfirst i hi _ (List.getElem?_eq_getElem (Nat.lt_trans hi hd))⟩
  · rw [List.findIdx?_eq_none_iff]
    simp [HasName]

/-- Where a tree stands with its depths, its uses have their lexical ones. The scopes around the
tree have the name that it declares. -/
def Records (t : Tree) : Prop :=
  ∀ (root : Tree) (above : Surroundings) (S : List Frame) (k : InClass),
    Inside above (afterStatement S t) k → root.at? (above.map Prod.snd) = some (written S k t) →
      AllRecorded root above t

/-- The same for a method, which declares no name. -/
def RecordsMethod (t : Tree) : Prop :=
  ∀ (root : Tree) (above : Surroundings) (S : List Frame) (k : InClass),
    Inside above S k → root.at? (above.map Prod.snd) = some (writtenMethod S k t) →
      AllRecorded root above t

/-- What a tree holds that stands in the same scopes. -/
theorem Records.slot {t' : Tree} (h : Records u) (hin : Inside above S k)
    (hat : root.at? (above.map Prod.snd) = some t') (hd : u.declared? = none)
    (hc : t.isClass = false)
    (hs : Surroundings.lexicalScopes ((t, i) :: above) = above.lexicalScopes)
    (hu : t'.children[i]? = some (written S k u)) : AllRecorded root ((t, i) :: above) u := by
  refine h root _ S k ?_ (at?_cons hat t hu)
  rw [afterStatement_of_none hd]
  exact hin.slot hc hs

/-- Statements one after the other. -/
theorem allRecorded_body {items : List Tree} (h : ∀ t ∈ items, Records t)
    (hin : ∀ j, Inside ((.list items, j) :: above) ((items.take (j + 1)).foldl afterStatement S) k)
    (hat : root.at? (above.map Prod.snd) = some (.list (writtenIn S k items))) :
    AllRecorded root above (.list items) := by
  refine allRecorded_list fun j t ht => ?_
  refine h t (List.mem_of_getElem? ht) root _ ((items.take j).foldl afterStatement S) k ?_ ?_
  · have hj := hin j
    rw [List.take_add_one, ht, List.foldl_append] at hj
    exact hj
  · refine at?_cons hat _ ?_
    show (writtenIn S k items)[j]? = _
    rw [getElem?_writtenIn, ht]
    rfl

end Visits

/-! ## The whole walk -/

section Shaped

variable {K : Token → Prop} {t : Tree}

theorem records_null : Records .null :=
  fun _ _ _ _ _ _ => allRecorded_none rfl (recorded_of_none rfl)

/-- An expression records the lexical depths. -/
theorem records_expression (hK : Named K) (h : Shaped K .expression t) : Records t := by
  generalize hpart : Parser.Part.expression = part at h
  induction h with
  | literal | always =>
    exact fun _ _ _ _ _ _ => allRecorded_none rfl (recorded_of_none rfl)
  | grouping he ih | getField he _ ih | unary _ he ih =>
    intro root above S k hin hat
    have hd := he.declared?_expression
    exact allRecorded_one rfl (recorded_of_none rfl) ((ih rfl).slot hin hat hd rfl rfl rfl)
  | binary hl _ hr ihl ihr | logical hl _ hr ihl ihr | setField hr _ hl ihr ihl =>
    intro root above S k hin hat
    exact allRecorded_two rfl rfl
      ((ihl rfl).slot hin hat hl.declared?_expression rfl rfl rfl)
      ((ihr rfl).slot hin hat hr.declared?_expression rfl rfl rfl)
  | call hc _ has ihc iha =>
    intro root above S k hin hat
    refine allRecorded_two rfl rfl
      ((ihc rfl).slot hin hat hc.declared?_expression rfl rfl rfl)
      (allRecorded_list fun j t ht => ?_)
    have hmem := List.mem_of_getElem? ht
    refine iha t hmem rfl root _ S k ?_ (at?_cons (at?_cons hat _ rfl) _ ?_)
    · rw [afterStatement_of_none (has t hmem).declared?_expression]
      exact (hin.slot rfl rfl).slot rfl rfl
    · show (writtenEach S k _)[j]? = _
      rw [writtenEach_eq, List.getElem?_map, ht]
      rfl
  | ident hn =>
    obtain ⟨token, key, htoken, hkey⟩ := hK.slot hn
    intro root above S k hin hat
    refine allRecorded_none rfl ?_
    rintro _ ⟨⟩
    refine ⟨_, by rw [hat]; rfl, hin.resolvesTo hkey nofun⟩
  | assign hn he ih =>
    obtain ⟨token, key, htoken, hkey⟩ := hK.slot hn
    intro root above S k hin hat
    refine allRecorded_one rfl ?_ ((ih rfl).slot hin hat he.declared?_expression rfl rfl rfl)
    rintro _ ⟨⟩
    exact ⟨_, by rw [hat]; rfl, hin.resolvesTo hkey nofun⟩
  | thisRef hk =>
    obtain ⟨token, key, htoken, hkey⟩ := hK.slot hk
    intro root above S k hin hat
    refine allRecorded_none rfl ?_
    rintro _ ⟨⟩
    have hclass := hin.inClass
    unfold classKindAt at hclass
    refine ⟨_, by rw [hat]; rfl, ?_⟩
    cases hc : above.innermost? Tree.isClass with
    | none =>
      rw [hc] at hclass
      rw [if_pos hclass]
      unfold ResolvesTo
      rw [if_pos ⟨rfl, hc⟩]
    | some c =>
      rw [hc] at hclass
      have hne : k ≠ .none := by
        rw [hclass]
        dsimp only
        split <;> exact nofun
      rw [if_neg hne]
      exact hin.resolvesTo hkey (fun h => nomatch hc.symm.trans h.2)
  | superRef hk _ =>
    obtain ⟨token, key, htoken, hkey⟩ := hK.slot hk
    intro root above S k hin hat
    refine allRecorded_none rfl ?_
    rintro _ ⟨⟩
    exact ⟨_, by rw [hat]; rfl, hin.resolvesTo hkey nofun⟩
  | _ => cases hpart

/-- A function opens one scope, for its parameters and its body. -/
theorem recordsMethod {name : Tree} {params items : List Tree} (h : ∀ t ∈ items, Records t) :
    RecordsMethod (.funDecl name (.list params) (.list items)) := by
  intro root above S k hin hat
  refine allRecorded_one rfl (recorded_of_none rfl)
    (allRecorded_body h (fun j => ⟨?_, ?_⟩) (at?_cons hat _ rfl))
  · obtain ⟨frame, hfold, hframe⟩ := bindsJust_foldl_bindReady params bindsJust_empty
    rw [hfold]
    exact bindsJust_statements hframe hin.frames (items.take (j + 1))
  · exact hin.inClass

theorem records_block {items : List Tree} (h : ∀ t ∈ items, Records t) :
    Records (.block (.list items)) := by
  intro root above S k hin hat
  exact allRecorded_one rfl (recorded_of_none rfl) (allRecorded_body h
    (fun j => ⟨bindsJust_statements bindsJust_empty hin.frames (items.take (j + 1)), hin.inClass⟩)
    (at?_cons hat _ rfl))

theorem records_varDecl {name e : Tree} (he : Records e) (hd : e.declared? = none) :
    Records (.varDecl name e) := by
  intro root above S k hin hat
  refine allRecorded_one rfl (recorded_of_none rfl) (he root _ _ k ⟨?_, ?_⟩ (at?_cons hat _ rfl))
  · rw [afterStatement_of_none hd]
    exact bindsJust_bindName hin.frames
  · exact hin.inClass

theorem records_ifElse {c t e : Tree} (hc : Records c) (hcd : c.declared? = none) (ht : Records t)
    (htd : t.declared? = none) (he : Records e) (hed : e.declared? = none) :
    Records (.ifElse c t e) := by
  intro root above S k hin hat
  unfold AllRecorded
  rw [Tree.visits]
  exact List.forall_mem_cons.2 ⟨recorded_of_none rfl, List.forall_mem_append.2
    ⟨List.forall_mem_append.2 ⟨hc.slot hin hat hcd rfl rfl rfl, ht.slot hin hat htd rfl rfl rfl⟩,
      he.slot hin hat hed rfl rfl rfl⟩⟩

/-- A class records the depths that its methods record. -/
theorem records_classDecl {name parent : Tree} {methods : List Tree}
    (hparent : parent = .null ∨ ∃ token, parent = .ident token none ∧ Records parent)
    (hmethods : ∀ t ∈ methods, RecordsMethod t) :
    Records (.classDecl name parent (.list methods)) := by
  intro root above S k hin hat
  refine allRecorded_two rfl rfl ?_ (allRecorded_list fun j t ht => ?_)
  · obtain rfl | ⟨token, rfl, h⟩ := hparent
    · exact allRecorded_none rfl (recorded_of_none rfl)
    · exact h root _ (bindReady S name) .subclass ⟨hin.frames, rfl⟩ (at?_cons hat _ rfl)
  · refine hmethods t (List.mem_of_getElem? ht) root _
      (aroundMethods (bindReady S name) parent) (classKind parent) ⟨?_, ?_⟩
      (at?_cons (at?_cons hat _ rfl) _ ?_)
    · have hthis := bindsJust_single "this"
      have hsuper := bindsJust_single "super"
      unfold aroundMethods Surroundings.lexicalScopes
      cases parent.isNull with
      | true => exact .cons hthis hin.frames
      | false => exact .cons hthis (.cons hsuper hin.frames)
    · exact (classKindAt_class name parent (.list methods) 2 above).symm
    · show (writtenMethods _ _ _)[j]? = _
      rw [writtenMethods_eq, List.getElem?_map, ht]
      rfl

/-- The part of a program, written with its depths, has the lexical ones. -/
def RecordsPart : Parser.Part → Tree → Prop
  | .method, t => RecordsMethod t
  | _, t => Records t

/-- All that the parser builds records the lexical depths. -/
theorem records_shaped (hK : Named K) {part : Parser.Part} (h : Shaped K part t) :
    RecordsPart part t := by
  have hexpression {e : Tree} (he : Shaped K .expression e) : Records e :=
    records_expression hK he
  induction h with
  | exprStmt he _ | printStmt he _ | returnStmt _ he _ =>
    intro root above S k hin hat
    have hd := he.declared?_expression
    exact allRecorded_one rfl (recorded_of_none rfl) ((hexpression he).slot hin hat hd rfl rfl rfl)
  | block _ ih => exact records_block ih
  | ifOnly hc ht _ iht =>
    exact records_ifElse (hexpression hc) hc.declared?_expression iht ht.declared?_statement
      records_null rfl
  | ifElse hc ht he _ iht ihe =>
    exact records_ifElse (hexpression hc) hc.declared?_expression iht ht.declared?_statement
      ihe he.declared?_statement
  | whileLoop hc ht _ iht =>
    intro root above S k hin hat
    exact allRecorded_two rfl rfl
      ((hexpression hc).slot hin hat hc.declared?_expression rfl rfl rfl)
      (iht.slot hin hat ht.declared?_statement rfl rfl rfl)
  | emptyReturn =>
    intro root above S k hin hat
    exact allRecorded_one rfl (recorded_of_none rfl) (records_null.slot hin hat rfl rfl rfl rfl)
  | null => exact records_null
  | statement _ ih => exact ih
  | emptyVar => exact records_varDecl records_null rfl
  | varDecl _ he _ => exact records_varDecl (hexpression he) he.declared?_expression
  | method _ _ _ ih => exact recordsMethod ih
  | funDecl ht ih =>
    cases ht with
    | @method name params body _ _ _ =>
      exact fun root above S k hin hat => ih root above (bindReady S name) k hin hat
  | rootClass _ _ ih => exact records_classDecl (.inl rfl) ih
  | subclass _ hp _ ih => exact records_classDecl (.inr ⟨_, rfl, hexpression (.ident hp)⟩) ih
  | _ => exact hexpression (by constructor <;> assumption)

end Shaped

/-! ## All uses are visited -/

section Uses

variable {K : Token → Prop}

/-- The uses of the trees that are visited. -/
def visitedUses (visits : List (Surroundings × Tree)) : List Tree.Use :=
  visits.filterMap fun visit => visit.2.use?

theorem uses_of_holds {kinds : List Token.Kind} {slot : Tree} (h : Holds K kinds slot) :
    slot.uses = [] := by
  obtain ⟨a, rfl, -⟩ := h
  rfl

theorem usesIn_of_holds {kinds : List Token.Kind} {slots : List Tree}
    (h : ∀ slot ∈ slots, Holds K kinds slot) : Tree.usesIn slots = [] := by
  induction slots with
  | nil => rfl
  | cons slot slots ih =>
    obtain ⟨hslot, hrest⟩ := List.forall_mem_cons.1 h
    rw [Tree.usesIn, uses_of_holds hslot, ih hrest, List.append_nil]

mutual

theorem uses_ofJson : ∀ json : Json, (Tree.ofJson json).uses = []
  | .scalar _ | .object _ => rfl
  | .array items => usesIn_ofJsons items

theorem usesIn_ofJsons : ∀ items : List Json, Tree.usesIn (Tree.ofJsons items) = []
  | [] => rfl
  | json :: items => by
    rw [Tree.ofJsons, Tree.usesIn, uses_ofJson, usesIn_ofJsons, List.append_nil]

end

theorem uses_literalValue (a : Token) : (literalValue a).uses = [] := by
  unfold literalValue
  split
  · rfl
  · rfl
  · rfl
  · exact uses_ofJson _

theorem perm_uses_from {place : Nat → Surroundings} : ∀ (ts : List Tree) (i : Nat),
    (∀ t ∈ ts, ∀ above, (visitedUses (t.visits above)).Perm t.uses) →
      (visitedUses (Tree.visitsFrom place i ts)).Perm (Tree.usesIn ts)
  | [], _, _ => .nil
  | t :: ts, i, h => by
    obtain ⟨ht, hrest⟩ := List.forall_mem_cons.1 h
    rw [Tree.visitsFrom, Tree.usesIn, visitedUses, List.filterMap_append]
    exact (ht _).append (perm_uses_from ts (i + 1) hrest)

/-- The trees that are visited have all uses of the program. -/
theorem perm_uses_visits {part : Parser.Part} {t : Tree} (h : Shaped K part t) :
    ∀ above, (visitedUses (t.visits above)).Perm t.uses := by
  induction h with
  | literal =>
    intro above
    simp [visitedUses, Tree.visits, Tree.use?, Tree.uses, uses_literalValue]
  | always => exact fun above => .nil
  | grouping _ ih | exprStmt _ ih | printStmt _ ih => exact fun above => ih _
  | statement _ ih | funDecl _ ih => exact ih
  | unary h _ ih | returnStmt h _ ih | varDecl h _ ih =>
    intro above
    rw [Tree.uses, uses_of_holds h]
    exact ih _
  | binary _ h _ ihl ihr | logical _ h _ ihl ihr =>
    intro above
    rw [Tree.visits, visitedUses, List.filterMap_cons, List.filterMap_append, Tree.uses,
      uses_of_holds h, List.append_nil]
    exact (ihl _).append (ihr _)
  | ident h | thisRef h =>
    intro above
    rw [Tree.uses, uses_of_holds h]
    exact .refl _
  | assign h _ ih =>
    intro above
    rw [Tree.uses, uses_of_holds h]
    exact (ih _).cons _
  | call _ h _ ihc iha =>
    intro above
    rw [Tree.visits, visitedUses, List.filterMap_cons, List.filterMap_append, Tree.uses,
      uses_of_holds h, List.append_nil]
    exact (ihc _).append (perm_uses_from _ 0 iha)
  | getField _ h ih =>
    intro above
    rw [Tree.uses, uses_of_holds h, List.append_nil]
    exact ih _
  | setField _ h _ iho ihv =>
    intro above
    rw [Tree.visits, visitedUses, List.filterMap_cons, List.filterMap_append, Tree.uses,
      uses_of_holds h, List.append_nil]
    exact List.perm_append_comm.trans ((iho _).append (ihv _))
  | superRef h h' =>
    intro above
    rw [Tree.uses, uses_of_holds h, uses_of_holds h']
    exact .refl _
  | block _ ih => exact fun above => perm_uses_from _ 0 ih
  | ifOnly _ _ ihc iht =>
    intro above
    rw [Tree.visits, visitedUses, List.filterMap_cons, List.filterMap_append, List.filterMap_append]
    exact ((ihc _).append (iht _)).append .nil
  | ifElse _ _ _ ihc iht ihe =>
    intro above
    rw [Tree.visits, visitedUses, List.filterMap_cons, List.filterMap_append, List.filterMap_append]
    exact ((ihc _).append (iht _)).append (ihe _)
  | whileLoop _ _ ihc iht =>
    intro above
    rw [Tree.visits, visitedUses, List.filterMap_cons, List.filterMap_append]
    exact (ihc _).append (iht _)
  | emptyReturn h | emptyVar h =>
    intro above
    rw [Tree.uses, uses_of_holds h]
    exact .nil
  | null => exact fun above => .nil
  | method h hps _ ih =>
    intro above
    rw [Tree.uses, uses_of_holds h, Tree.uses, usesIn_of_holds hps]
    exact perm_uses_from _ 0 ih
  | rootClass h _ ih =>
    intro above
    rw [Tree.uses, uses_of_holds h]
    exact perm_uses_from _ 0 ih
  | subclass h hp _ ih =>
    intro above
    simp only [Tree.uses, uses_of_holds h, uses_of_holds hp]
    exact (perm_uses_from _ 0 ih).cons _

end Uses

/-! ## Programs -/

section Programs

variable {tokens : List Token} {parsed : Parsed}

/-- The resolver's result, where no statement is too deep, has the lexical depths. -/
theorem lexicalDepths_writtenIn {K : Token → Prop} (hK : Named K) {ts : List Tree}
    (h : ∀ t ∈ ts, Shaped K .declaration t) : LexicalDepths ts (writtenIn [] .none ts) := by
  refine allRecorded_body (fun t ht => records_shaped hK (h t ht)) (fun j => ⟨?_, rfl⟩) rfl
  rw [foldl_afterStatement_nil]
  exact .nil

/-- What the parser gives is resolved. The messages are the violations and the depths are lexical,
unless a statement is too deep for the room. -/
theorem exists_resolved (hnames : ∀ a ∈ tokens, ∃ key, a.name = .ok key)
    (hparse : parse? tokens = some parsed) (room : Nat) :
    ∃ trees s, Resolver.program room parsed.statements {} = .ok trees s ∧
      (s.problems.toList = (Tree.list parsed.statements).reports [] ∧
          LexicalDepths parsed.statements trees ∨
        room < 4 * sizeOf parsed.statements ∧ TooDeep s.problems.toList) := by
  have hshaped := shaped_parse hparse
  obtain ⟨trees, s, hrun, -, hresult⟩ := exists_program hnames hshaped room
  refine ⟨trees, s, hrun, hresult.imp_left ?_⟩
  rintro ⟨rfl, hproblems⟩
  exact ⟨hproblems, lexicalDepths_writtenIn hnames hshaped⟩

theorem forall_name_of_all (h : tokens.all (fun a => a.name.toOption.isSome) = true) :
    ∀ a ∈ tokens, ∃ key, a.name = .ok key := by
  intro a ha
  have hsome := List.all_eq_true.1 h a ha
  cases hname : a.name with
  | ok key => exact ⟨key, rfl⟩
  | error fault =>
    rw [hname] at hsome
    cases hsome

/-- The depths of the resolver are the lexical ones. For what the parser gives, each use has the
number of the first scope around it that has its name at that place, and it has no depth if there is
none. The uses are those of the trees that are visited. Only with a statement that is too deep,
which is reported, this can fail, and with enough room there is none. -/
theorem resolve_lexicalDepths (hnames : ∀ a ∈ tokens, ∃ key, a.name = .ok key)
    (hparse : parse? tokens = some parsed) :
    (visitedUses ((Tree.list parsed.statements).visits [])).Perm
        (Tree.list parsed.statements).uses ∧
      (∃ trees, (resolve parsed.statements).statements = .ok trees ∧
        (¬TooDeep (resolve parsed.statements).problems → LexicalDepths parsed.statements trees)) ∧
      ∀ room, 4 * sizeOf parsed.statements ≤ room → ∃ trees s,
        Resolver.program room parsed.statements {} = .ok trees s ∧
          LexicalDepths parsed.statements trees := by
  refine ⟨perm_uses_from _ 0 fun t ht => perm_uses_visits (shaped_parse hparse t ht), ?_, ?_⟩
  · obtain ⟨trees, htrees, -, h⟩ := exists_resolve hnames (shaped_parse hparse)
    refine ⟨trees, htrees, fun hdeep => ?_⟩
    rw [(h hdeep).1]
    exact lexicalDepths_writtenIn hnames (shaped_parse hparse)
  · intro room hroom
    obtain ⟨trees, s, hrun, ⟨-, h⟩ | ⟨hless, -⟩⟩ := exists_resolved hnames hparse room
    · exact ⟨trees, s, hrun, h⟩
    · omega

/-- A name that is declared in the block, a parameter and a name that is not declared, used in a
method before and after the name is declared once more, and a method of a subclass. -/
theorem resolve_lexicalDepths_shadowed :
    let source :=
      "\x7b var a = 1; class A \x7b m(b) \x7b this.m(a, b, c); var a; a = a; \x7d \x7d" ++
      " class B < A \x7b m() \x7b var a = super.m; return this; \x7d \x7d \x7d"
    let depths := [some 1, some 2, some 0, none, some 0, some 0, some 0, some 2, some 1]
    ∃ parsed trees, parse? (scan source).finish = some parsed ∧
      (resolve parsed.statements).statements = .ok trees ∧
      (Tree.list trees).uses.map (·.depth) = depths ∧ LexicalDepths parsed.statements trees := by
  intro source depths
  have hrun : (scan source).finish.all (fun a => a.name.toOption.isSome) &&
      (parse? (scan source).finish).any (fun parsed =>
        !(resolve parsed.statements).problems.any isTooDeep &&
          (resolve parsed.statements).statements.toOption.any fun trees =>
            (Tree.list trees).uses.map (·.depth) == depths) := by
    decide +kernel
  obtain ⟨hall, hrun⟩ := Bool.and_eq_true_iff.1 hrun
  obtain ⟨parsed, hparse, hrun⟩ := (Option.any_eq_true _ _).1 hrun
  obtain ⟨-, ⟨trees, htrees, h⟩, -⟩ := resolve_lexicalDepths (forall_name_of_all hall) hparse
  simp only [htrees, Option.any_some, Except.toOption, Bool.and_eq_true, beq_iff_eq] at hrun
  exact ⟨parsed, trees, hparse, htrees, hrun.2, h (by simpa [TooDeep] using hrun.1)⟩

/-- The messages of the resolver are the violations of the static rules: for what the parser gives,
each violation is reported once, at its token and in the order in which the trees are read, and
nothing else is. Only with a statement that is too deep, which is reported, this can fail, and with
enough room there is none. -/
theorem resolve_reports_violations (hnames : ∀ a ∈ tokens, ∃ key, a.name = .ok key)
    (hparse : parse? tokens = some parsed) :
    (∃ trees, (resolve parsed.statements).statements = .ok trees ∧
        (¬TooDeep (resolve parsed.statements).problems →
          (resolve parsed.statements).problems = (Tree.list parsed.statements).reports [])) ∧
      ∀ room, 4 * sizeOf parsed.statements ≤ room → ∃ trees s,
        Resolver.program room parsed.statements {} = .ok trees s ∧
          s.problems.toList = (Tree.list parsed.statements).reports [] := by
  refine ⟨?_, fun room hroom => ?_⟩
  · obtain ⟨trees, htrees, -, h⟩ := exists_resolve hnames (shaped_parse hparse)
    exact ⟨trees, htrees, fun hdeep => (h hdeep).2⟩
  · obtain ⟨trees, s, hrun, ⟨h, -⟩ | ⟨hless, -⟩⟩ := exists_resolved hnames hparse room
    · exact ⟨trees, s, hrun, h⟩
    · omega

/-- One violation of each rule, the last ones in a method of a class without a superclass. -/
theorem resolve_reports_violations_each :
    let source := "return 1; \x7b var a = a; \x7d print this; super.m; class A < A \x7b \x7d " ++
      "class B \x7b init() \x7b fun f() \x7b return 1; \x7d return super.m; \x7d \x7d"
    let messages :=
      ["[line 1] Error at 'return': Can't return from top-level code.",
        "[line 1] Error at 'a': Can't read local variable in its own initializer.",
        "[line 1] Error at 'this': Can't use 'this' outside of a class.",
        "[line 1] Error at 'super': Can't use 'super' outside of a class.",
        "[line 1] Error at 'A': A class can't inherit from itself.",
        "[line 1] Error at 'return': Can't return a value from an initializer.",
        "[line 1] Error at 'super': Can't use 'super' in a class with no superclass."]
    ∃ parsed, parse? (scan source).finish = some parsed ∧
      (resolve parsed.statements).problems = (Tree.list parsed.statements).reports [] ∧
      (resolve parsed.statements).problems.map Diagnostic.text = messages := by
  intro source messages
  have hrun : (scan source).finish.all (fun a => a.name.toOption.isSome) &&
      (parse? (scan source).finish).any (fun parsed =>
        !(resolve parsed.statements).problems.any isTooDeep &&
          (resolve parsed.statements).problems.map Diagnostic.text == messages) := by
    decide +kernel
  obtain ⟨hall, hrun⟩ := Bool.and_eq_true_iff.1 hrun
  obtain ⟨parsed, hparse, hrun⟩ := (Option.any_eq_true _ _).1 hrun
  obtain ⟨⟨trees, -, h⟩, -⟩ := resolve_reports_violations (forall_name_of_all hall) hparse
  obtain ⟨hdeep, hmessages⟩ := Bool.and_eq_true_iff.1 hrun
  exact ⟨parsed, hparse, h (by simpa [TooDeep] using hdeep), beq_iff_eq.1 hmessages⟩

end Programs

end LoxLang
