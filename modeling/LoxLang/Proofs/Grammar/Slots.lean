import LoxLang.Proofs.Grammar.Boundaries
import LoxLang.Proofs.Grammar.Shapes
import LoxLang.Proofs.Positions

/-!
# What stands where

A tree of any form has slots for tokens, for trees of certain forms and for lists of them, and some
slots may be empty. `Tree.Form.contents` says for each form what its slots are for. It fixes where
an expression has to be, that a branch and a body are statements and no declarations, and that only
the items of a program, of a block and of a function may be declarations or missing.

The slot of each place in a program follows from the forms above it (`Tree.slotAt`). Whatever the
parser has reported, each tree that it gives stands in a slot that admits it, at every depth
(`parse_fills_slots`).
-/

namespace LoxLang

/-- What may stand at a place of a program. -/
inductive Slot where
  /-- What a literal holds. -/
  | datum
  | token (kinds : List Token.Kind)
  | node (forms : List Tree.Form)
  | optional (slot : Slot)
  | sequence (item : Slot)
deriving DecidableEq, Repr

namespace Slot

open LoxLang.Tree (Form)

/-- A slot for a name. -/
def name : Slot := token [.identifier]

/-- A slot for an expression. -/
def expression : Slot :=
  node [.literal, .unary, .binary, .logical, .grouping, .ident, .assign, .call, .getField,
    .setField, .thisRef, .superRef]

/-- The forms of statements that declare nothing. -/
def statementForms : List Form :=
  [.exprStmt, .printStmt, .block, .ifElse, .whileLoop, .returnStmt]

/-- The forms of statements that declare a name. -/
def declarationForms : List Form :=
  [.varDecl, .funDecl, .classDecl]

/-- A slot for a statement that declares nothing. -/
def statement : Slot := node statementForms

/-- An item of a program, of a block or of the body of a function. It is missing where a problem
was reported. -/
def declaration : Slot := optional (node (statementForms ++ declarationForms))

/-- A slot for a method. -/
def method : Slot := node [.funDecl]

/-- The tree may stand in the slot. Only its root is looked at. -/
def admits : Slot → Tree → Bool
  | datum, t => (t matches .scalar _ | .list _ | .object _)
  | token kinds, t => t.asToken?.any fun a => kinds.contains a.kind
  | node forms, t => t.form?.any forms.contains
  | optional slot, t => t.isNull || slot.admits t
  | sequence _, t => (t matches .list _)

/-- What the items of a list in the slot are. -/
def item : Slot → Slot
  | sequence item => item
  | slot => slot

end Slot

open Slot in
/-- What the slots of a form are for, in their order. -/
def Tree.Form.contents : Form → List Slot
  | literal => [datum]
  | unary => [.token [.bang, .minus], expression]
  | binary => [expression, .token Parser.binaryKinds, expression]
  | logical => [expression, .token [.kwOr, .kwAnd], expression]
  | grouping => [expression]
  | ident => [Slot.name]
  | assign => [Slot.name, expression]
  | call => [expression, .token [.rightParen], .sequence expression]
  | getField => [expression, Slot.name]
  | setField => [expression, Slot.name, expression]
  | thisRef => [.token [.kwThis]]
  | superRef => [.token [.kwSuper], Slot.name]
  | exprStmt => [expression]
  | printStmt => [expression]
  | varDecl => [Slot.name, .optional expression]
  | block => [.sequence declaration]
  | ifElse => [expression, statement, .optional statement]
  | whileLoop => [expression, statement]
  | funDecl => [Slot.name, .sequence Slot.name, .sequence declaration]
  | returnStmt => [.token [.kwReturn], .optional expression]
  | classDecl => [Slot.name, .optional (.node [.ident]), .sequence method]

/-- The slot of what stands at a place of the tree that stands in the given slot. -/
def Slot.inside (slot : Slot) (t : Tree) (i : Nat) : Option Slot :=
  match t.form? with
  | some form => form.contents[i]?
  | none => some slot.item

/-- The slot at the end of a path through a program. -/
def Tree.slotAt (root : Tree) : List Nat → Option Slot
  | [] => some (.sequence .declaration)
  | i :: path => (root.at? path).bind fun t => (root.slotAt path).bind fun slot => slot.inside t i

/-- The tree and the trees below it stand in slots that admit them. -/
inductive Filled : Slot → Tree → Prop where
  | intro {slot : Slot} {t : Tree} (here : slot.admits t = true)
      (below : ∀ {i s u}, slot.inside t i = some s → t.children[i]? = some u → Filled s u) :
      Filled slot t

theorem Tree.length_contents {t : Tree} {form : Tree.Form} (h : t.form? = some form) :
    form.contents.length = t.children.length := by
  cases t <;> cases h <;> rfl

namespace Filled

variable {slot : Slot} {t : Tree}

theorem here (h : Filled slot t) : slot.admits t = true := by
  obtain ⟨h, -⟩ := h
  exact h

/-- What stands in a filled slot fills its own slots. -/
theorem child (h : Filled slot t) {i : Nat} {u : Tree} (hu : t.children[i]? = some u) :
    ∃ s, slot.inside t i = some s ∧ Filled s u := by
  obtain ⟨-, hbelow⟩ := h
  cases hform : t.form? with
  | none =>
    exact ⟨slot.item, by simp [Slot.inside, hform], hbelow (by simp [Slot.inside, hform]) hu⟩
  | some form =>
    obtain ⟨hi, -⟩ := List.getElem?_eq_some_iff.1 hu
    rw [← Tree.length_contents hform] at hi
    have hslot : slot.inside t i = some form.contents[i] := by simp [Slot.inside, hform, hi]
    exact ⟨_, hslot, hbelow hslot hu⟩

/-- A tree of a form, each slot of which is filled. -/
theorem node {forms : List Tree.Form} {form : Tree.Form} (hform : t.form? = some form)
    (hmem : form ∈ forms) (h : List.Forall₂ Filled form.contents t.children) :
    Filled (.node forms) t := by
  refine ⟨by simp [Slot.admits, hform, hmem], fun {i s u} hs hu => ?_⟩
  simp only [Slot.inside, hform] at hs
  obtain ⟨hi, rfl⟩ := List.getElem?_eq_some_iff.1 hs
  obtain ⟨hi', rfl⟩ := List.getElem?_eq_some_iff.1 hu
  exact h.get hi hi'

/-- A list, each item of which is filled. -/
theorem sequence {items : List Tree} (h : ∀ u ∈ items, Filled slot u) :
    Filled (.sequence slot) (.list items) := by
  refine ⟨rfl, fun {i s u} hs hu => ?_⟩
  cases hs
  exact h u (List.mem_of_getElem? hu)

theorem token {K : Token → Prop} {kinds : List Token.Kind} (h : Parser.Holds K kinds t) :
    Filled (.token kinds) t := by
  obtain ⟨a, rfl, -, hkind⟩ := h
  exact ⟨by simpa [Slot.admits, Tree.asToken?] using hkind, by simp [Tree.children]⟩

theorem empty : Filled (.optional slot) .null :=
  ⟨rfl, by simp [Tree.null, Tree.children]⟩

/-- What fills a slot for trees of some forms also fills an optional one for more forms. -/
theorem optional {forms more : List Tree.Form} (h : Filled (.node forms) t) (hsub : forms ⊆ more) :
    Filled (.optional (.node more)) t := by
  obtain ⟨here, hbelow⟩ := h
  obtain ⟨form, hform, hmem⟩ : ∃ form, t.form? = some form ∧ form ∈ forms := by
    simpa [Slot.admits, Option.any_eq_true] using here
  refine ⟨?_, fun {i s u} hs hu => hbelow ?_ hu⟩
  · simp [Slot.admits, hform, hsub hmem]
  · simpa only [Slot.inside, hform] using hs

theorem declaration {form : Tree.Form} (hform : t.form? = some form)
    (hmem : form ∈ Slot.declarationForms) (h : List.Forall₂ Filled form.contents t.children) :
    Filled .declaration t := by
  have hnode : Filled (.node Slot.declarationForms) t := .node hform hmem h
  exact hnode.optional (by simp)

end Filled

/-! ## Parsed trees -/

mutual

theorem filled_ofJson : ∀ json : Json, Filled .datum (Tree.ofJson json)
  | .scalar _ | .object _ => by
    unfold Tree.ofJson
    exact ⟨rfl, by simp [Tree.children]⟩
  | .array items => by
    unfold Tree.ofJson
    refine ⟨rfl, fun {i s u} hs hu => ?_⟩
    cases hs
    exact filled_ofJsons items u (List.mem_of_getElem? hu)

theorem filled_ofJsons : ∀ items : List Json, ∀ u ∈ Tree.ofJsons items, Filled .datum u
  | [] => by
    unfold Tree.ofJsons
    exact nofun
  | json :: items => by
    unfold Tree.ofJsons
    exact List.forall_mem_cons.2 ⟨filled_ofJson json, filled_ofJsons items⟩

end

theorem filled_scalar (s : Scalar) : Filled .datum (.scalar s) :=
  filled_ofJson (.scalar s)

/-- The slot that a part of a program fills. -/
def Parser.Part.slot : Parser.Part → Slot
  | expression => .expression
  | statement => .statement
  | declaration => .declaration
  | method => .method

/-- Each tree in a part of a program stands in a slot that admits it. -/
theorem filled_shaped {K : Token → Prop} {part : Parser.Part} {t : Tree}
    (h : Parser.Shaped K part t) : Filled part.slot t := by
  induction h with
  | @literal a _ _ =>
    refine .node rfl (by decide) (.cons ?_ .nil)
    unfold Parser.literalValue
    split
    · exact filled_scalar _
    · exact filled_scalar _
    · exact filled_scalar _
    · exact filled_ofJson _
  | always => exact .node rfl (by decide) (.cons (filled_scalar _) .nil)
  | grouping _ ih | exprStmt _ ih | printStmt _ ih => exact .node rfl (by decide) (.cons ih .nil)
  | unary hop _ ih | assign hop _ ih =>
    exact .node rfl (by decide) (.cons (.token hop) (.cons ih .nil))
  | binary _ hop _ ihl ihr | logical _ hop _ ihl ihr | setField _ hop _ ihl ihr =>
    exact .node rfl (by decide) (.cons ihl (.cons (.token hop) (.cons ihr .nil)))
  | ident hn | thisRef hn => exact .node rfl (by decide) (.cons (.token hn) .nil)
  | call _ hp _ ihc iha =>
    exact .node rfl (by decide) (.cons ihc (.cons (.token hp) (.cons (.sequence iha) .nil)))
  | getField _ hn ih => exact .node rfl (by decide) (.cons ih (.cons (.token hn) .nil))
  | superRef hk hm => exact .node rfl (by decide) (.cons (.token hk) (.cons (.token hm) .nil))
  | block _ ih => exact .node rfl (by decide) (.cons (.sequence ih) .nil)
  | ifOnly _ _ ihc iht => exact .node rfl (by decide) (.cons ihc (.cons iht (.cons .empty .nil)))
  | ifElse _ _ _ ihc iht ihe =>
    exact .node rfl (by decide) (.cons ihc (.cons iht (.cons (.optional ihe (by simp)) .nil)))
  | whileLoop _ _ ihc iht => exact .node rfl (by decide) (.cons ihc (.cons iht .nil))
  | emptyReturn hk => exact .node rfl (by decide) (.cons (.token hk) (.cons .empty .nil))
  | returnStmt hk _ ih =>
    exact .node rfl (by decide) (.cons (.token hk) (.cons (.optional ih (by simp)) .nil))
  | null => exact .empty
  | statement _ ih => exact ih.optional (by simp)
  | funDecl _ ih => exact ih.optional (by decide)
  | emptyVar hn => exact .declaration rfl (by decide) (.cons (.token hn) (.cons .empty .nil))
  | varDecl hn _ ih =>
    exact .declaration rfl (by decide) (.cons (.token hn) (.cons (.optional ih (by simp)) .nil))
  | method hn hps _ ih =>
    exact .node rfl (by decide) (.cons (.token hn) (.cons (.sequence fun u hu => .token (hps u hu))
      (.cons (.sequence ih) .nil)))
  | rootClass hn _ ih =>
    exact .declaration rfl (by decide)
      (.cons (.token hn) (.cons .empty (.cons (.sequence ih) .nil)))
  | @subclass _ parent _ hn hp _ ih =>
    have hparent : Filled (.node [.ident]) (.ident parent none) :=
      .node rfl (by decide) (.cons (.token hp) .nil)
    exact .declaration rfl (by decide)
      (.cons (.token hn) (.cons (.optional hparent (by simp)) (.cons (.sequence ih) .nil)))

/-! ## Places -/

namespace Slot

open LoxLang.Tree (Form)

/-- The slot is for trees of the form. -/
def takes : Slot → Form → Bool
  | node forms, form => forms.contains form
  | optional slot, form => slot.takes form
  | _, _ => false

theorem takes_of_admits {t : Tree} {form : Form} (hform : t.form? = some form) {slot : Slot}
    (h : slot.admits t = true) : slot.takes form = true := by
  induction slot with
  | datum | token | sequence => cases t <;> cases hform <;> cases h
  | node => simpa [admits, takes, hform] using h
  | optional slot ih =>
    have hnull : t.isNull = false := by cases t <;> cases hform <;> rfl
    rw [admits, hnull, Bool.false_or] at h
    exact ih h

/-- The slots of a program. -/
def all : List Slot :=
  let slots := sequence declaration :: Form.all.flatMap Form.contents
  slots ++ slots.map item

/-- There are no slots but those in the list. -/
theorem mem_all_inside {slot s : Slot} {t : Tree} {i : Nat} (h : slot ∈ all)
    (hs : slot.inside t i = some s) : s ∈ all := by
  unfold inside at hs
  split at hs
  · next form _ =>
    have hform : form ∈ Form.all := by cases form <;> decide
    refine List.mem_append_left _ (List.mem_cons_of_mem _ (List.mem_flatMap.2 ⟨form, hform, ?_⟩))
    exact List.mem_of_getElem? hs
  · cases hs
    have hitem : ∀ slot ∈ all, slot.item ∈ all := by decide
    exact hitem slot h

/-- Declarations stand among the items of a program, of a block and of a function, and functions
also among the methods of a class. -/
theorem eq_declaration_of_takes {slot : Slot} (h : slot ∈ all) {form : Form}
    (hform : form ∈ declarationForms) (ht : slot.takes form = true) :
    slot = declaration ∨ form = .funDecl ∧ slot = method := by
  revert slot form
  decide

end Slot

/-- Each place of a program has a slot, and what stands there fits it. -/
theorem Filled.at_path {root : Tree} (h : Filled (.sequence .declaration) root) {path : List Nat} :
    ∀ {t : Tree}, root.at? path = some t →
      ∃ slot ∈ Slot.all, root.slotAt path = some slot ∧ Filled slot t := by
  induction path with
  | nil =>
    intro t ht
    cases ht
    exact ⟨_, List.mem_cons_self, rfl, h⟩
  | cons i path ih =>
    intro t ht
    obtain ⟨u, hu, ht⟩ := Option.bind_eq_some_iff.1 ht
    obtain ⟨slot, hall, hslot, hfilled⟩ := ih hu
    obtain ⟨s, hs, hfilled⟩ := hfilled.child ht
    refine ⟨s, Slot.mem_all_inside hall hs, ?_, hfilled⟩
    rw [Tree.slotAt, hu, hslot]
    exact hs

/-- If a token ends the program, then the parser gives trees, and whatever it has reported, each of
them and each tree below them stands in a slot that admits it. Variables and classes are declared
only by the items of the program, of a block and of a function, and functions also by those of a
class. -/
theorem parse_fills_slots {tokens : List Token} (hend : ∃ t ∈ tokens, t.kind = .eof) :
    ∃ parsed, parse? tokens = some parsed ∧
      ∀ path t, (Tree.list parsed.statements).at? path = some t →
        ∃ slot, (Tree.list parsed.statements).slotAt path = some slot ∧ slot.admits t = true ∧
          ∀ form ∈ t.form?, form ∈ Slot.declarationForms →
            slot = .declaration ∨ form = .funDecl ∧ slot = .method := by
  obtain ⟨e, hmem, he⟩ := hend
  obtain ⟨body, e, rest, rfl, he, inside⟩ := Parser.exists_first_eof hmem he
  obtain ⟨trees, problems, -, hreads⟩ := Parser.exists_readsTo inside he Tree.maxDepth
  have hparse := parse_eq_some_iff.2 ⟨_, (hreads _ (.inl rfl)).ahead rest, rfl⟩
  refine ⟨_, hparse, fun path t ht => ?_⟩
  have hroot : Filled (.sequence .declaration) (.list trees) :=
    .sequence fun u hu => filled_shaped (shaped_parse hparse u hu)
  obtain ⟨slot, hall, hslot, hfilled⟩ := hroot.at_path ht
  refine ⟨slot, hslot, hfilled.here, fun form hform hdecl => ?_⟩
  exact Slot.eq_declaration_of_takes hall hdecl (Slot.takes_of_admits hform hfilled.here)

/-- A loop that declares a variable and a function, one statement of which cannot be read. -/
theorem parse_fills_slots_loop :
    let tokens := (scan "for (var i; i < 1;) { fun f(x) { x = ; -x; } }").finish
    (∃ t ∈ tokens, t.kind = .eof) ∧ ∃ parsed, parse? tokens = some parsed ∧
      parsed.problems.length = 1 ∧
      ∀ path t, (Tree.list parsed.statements).at? path = some t →
        ∃ slot, (Tree.list parsed.statements).slotAt path = some slot ∧ slot.admits t = true ∧
          ∀ form ∈ t.form?, form ∈ Slot.declarationForms →
            slot = .declaration ∨ form = .funDecl ∧ slot = .method := by
  intro tokens
  have hend : ∃ t ∈ tokens, t.kind = .eof := by decide +kernel
  have hproblems : (parse? tokens).map (·.problems.length) = some 1 := by decide +kernel
  obtain ⟨parsed, hparse, hslots⟩ := parse_fills_slots hend
  rw [hparse] at hproblems
  exact ⟨hend, parsed, hparse, Option.some.inj hproblems, hslots⟩

end LoxLang
