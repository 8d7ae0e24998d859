import LoxLang.Proofs.Heap

/-!
# Programs that are alike

Two programs are alike if they differ only in the lines of their tokens, and in the names that some
of their scopes bind. A `Change` says which lines may stand for each other and how a name changes.
Which scopes are affected is told by marks: `TreeLike` relates trees under the marks of the scopes
that are open around them, and a name changes where it is declared in a marked scope or was resolved
to one.

Trees can also differ in the numbers of the scopes that their names were resolved to. What two trees
need to have in common to be run alike is that they have the same form, and their parts again
(`Correspondence`). This is stated for a setting, which tells the marks of the scopes around the trees
and what becomes of their numbers.
-/

namespace LoxLang

/-! ## Changes -/

/-- What may differ between two programs. -/
structure Change where
  /-- Lines that may stand for each other. -/
  line : Json → Json → Prop
  /-- What becomes of a name in a marked scope. -/
  name : Name → Name
  name_beq : ∀ a b, (name a == name b) = (a == b)
  name_this : name (.ofText "this") = .ofText "this"
  name_super : name (.ofText "super") = .ofText "super"

namespace Change

variable (ρ : Change)

/-- What becomes of a name in a scope. -/
def rename (marked : Bool) (n : Name) : Name :=
  if marked then ρ.name n else n

@[simp] theorem rename_false (n : Name) : ρ.rename false n = n := rfl

@[simp] theorem rename_this (marked : Bool) :
    ρ.rename marked (.ofText "this") = .ofText "this" := by
  cases marked with
  | false => rfl
  | true => exact ρ.name_this

@[simp] theorem rename_super (marked : Bool) :
    ρ.rename marked (.ofText "super") = .ofText "super" := by
  cases marked with
  | false => rfl
  | true => exact ρ.name_super

theorem rename_beq (marked : Bool) (a b : Name) :
    (ρ.rename marked a == ρ.rename marked b) = (a == b) := by
  cases marked with
  | false => rfl
  | true => exact ρ.name_beq a b

end Change

/-- A change of lines only. -/
def Change.ofLines (line : Json → Json → Prop) : Change where
  line := line
  name := id
  name_beq _ _ := rfl
  name_this := rfl
  name_super := rfl

/-! ## Trees -/

section Trees

variable (ρ : Change)

/-- The slots hold tokens of the same kind and text. -/
def TokenLike (t t' : Tree) : Prop :=
  ∃ a a' : Token, t = .token a ∧ t' = .token a' ∧ a'.kind = a.kind ∧ a'.lexeme = a.lexeme ∧
    ρ.line a.line a'.line

/-- The slots hold tokens that name the same thing of a scope. -/
def NameLike (marked : Bool) (t t' : Tree) : Prop :=
  ∃ a a' : Token, t = .token a ∧ t' = .token a' ∧ a'.name = a.name.map (ρ.rename marked) ∧
    ρ.line a.line a'.line

/-- The mark of the scope that a use was resolved to. No global is marked. -/
def markAt (marks : List Bool) : Option Nat → Bool
  | none => false
  | some depth => marks.getD depth false

/-- The marks around the methods of a class: its scopes are not marked. -/
def marksAroundMethods (marks : List Bool) (parent : Tree) : List Bool :=
  false :: (if parent.isNull then marks else false :: marks)

/-- The trees are alike under the marks of the open scopes. A block and a function choose the mark
of the scope that they open. -/
inductive TreeLike : Role → List Bool → Tree → Tree → Prop where
  | body {β : List Bool} {ts ts' : List Tree} (length : ts.length = ts'.length)
      (items : ∀ {t t'}, (t, t') ∈ ts.zip ts' → TreeLike .statement β t t') :
      TreeLike .body β (.list ts) (.list ts')
  | arguments {β : List Bool} {ts ts' : List Tree} (length : ts.length = ts'.length)
      (items : ∀ {t t'}, (t, t') ∈ ts.zip ts' → TreeLike .expression β t t') :
      TreeLike .arguments β (.list ts) (.list ts')
  | members {β : List Bool} {ts ts' : List Tree} (length : ts.length = ts'.length)
      (items : ∀ {t t'}, (t, t') ∈ ts.zip ts' → TreeLike .method β t t') :
      TreeLike .members β (.list ts) (.list ts')
  | method {β : List Bool} {marked : Bool} {name name' body body' : Tree}
      {params params' : List Tree} :
      TokenLike ρ name name' → List.Forall₂ (NameLike ρ marked) params params' →
      TreeLike .body (marked :: β) body body' →
      TreeLike .method β (.funDecl name (.list params) body) (.funDecl name' (.list params') body')
  -- statements
  | exprStmt {β : List Bool} {e e' : Tree} :
      TreeLike .expression β e e' → TreeLike .statement β (.exprStmt e) (.exprStmt e')
  | printStmt {β : List Bool} {e e' : Tree} :
      TreeLike .expression β e e' → TreeLike .statement β (.printStmt e) (.printStmt e')
  | emptyVar {β : List Bool} {name name' : Tree} :
      NameLike ρ (β.headD false) name name' →
      TreeLike .statement β (.varDecl name .null) (.varDecl name' .null)
  | varDecl {β : List Bool} {name name' e e' : Tree} :
      NameLike ρ (β.headD false) name name' → TreeLike .expression β e e' →
      TreeLike .statement β (.varDecl name e) (.varDecl name' e')
  | block {β : List Bool} {marked : Bool} {items items' : Tree} :
      TreeLike .body (marked :: β) items items' →
      TreeLike .statement β (.block items) (.block items')
  | ifOnly {β : List Bool} {c c' t t' : Tree} :
      TreeLike .expression β c c' → TreeLike .statement β t t' →
      TreeLike .statement β (.ifElse c t .null) (.ifElse c' t' .null)
  | ifElse {β : List Bool} {c c' t t' e e' : Tree} :
      TreeLike .expression β c c' → TreeLike .statement β t t' → TreeLike .statement β e e' →
      TreeLike .statement β (.ifElse c t e) (.ifElse c' t' e')
  | whileLoop {β : List Bool} {c c' t t' : Tree} :
      TreeLike .expression β c c' → TreeLike .statement β t t' →
      TreeLike .statement β (.whileLoop c t) (.whileLoop c' t')
  | funDecl {β : List Bool} {name name' params params' body body' : Tree} :
      NameLike ρ (β.headD false) name name' →
      TreeLike .method β (.funDecl name params body) (.funDecl name' params' body') →
      TreeLike .statement β (.funDecl name params body) (.funDecl name' params' body')
  | emptyReturn {β : List Bool} {keyword keyword' : Tree} :
      TokenLike ρ keyword keyword' →
      TreeLike .statement β (.returnStmt keyword .null) (.returnStmt keyword' .null)
  | returnStmt {β : List Bool} {keyword keyword' e e' : Tree} :
      TokenLike ρ keyword keyword' → TreeLike .expression β e e' →
      TreeLike .statement β (.returnStmt keyword e) (.returnStmt keyword' e')
  | rootClass {β : List Bool} {name name' methods methods' : Tree} :
      TokenLike ρ name name' → NameLike ρ (β.headD false) name name' →
      TreeLike .members (marksAroundMethods β .null) methods methods' →
      TreeLike .statement β (.classDecl name .null methods) (.classDecl name' .null methods')
  | subclass {β : List Bool} {name name' parent parent' methods methods' : Tree}
      {depth : Option Nat} :
      TokenLike ρ name name' → NameLike ρ (β.headD false) name name' →
      TreeLike .expression β (.ident parent depth) (.ident parent' depth) →
      TreeLike .members (marksAroundMethods β (.ident parent depth)) methods methods' →
      TreeLike .statement β (.classDecl name (.ident parent depth) methods)
        (.classDecl name' (.ident parent' depth) methods')
  -- expressions
  | literal {β : List Bool} {value : Tree} {serial : Option Nat} :
      TreeLike .expression β (.literal value serial) (.literal value serial)
  | grouping {β : List Bool} {e e' : Tree} :
      TreeLike .expression β e e' → TreeLike .expression β (.grouping e) (.grouping e')
  | unary {β : List Bool} {operator operator' e e' : Tree} :
      TokenLike ρ operator operator' → TreeLike .expression β e e' →
      TreeLike .expression β (.unary operator e) (.unary operator' e')
  | binary {β : List Bool} {operator operator' l l' r r' : Tree} :
      TreeLike .expression β l l' → TokenLike ρ operator operator' →
      TreeLike .expression β r r' →
      TreeLike .expression β (.binary l operator r) (.binary l' operator' r')
  | logical {β : List Bool} {operator operator' l l' r r' : Tree} :
      TreeLike .expression β l l' → TokenLike ρ operator operator' →
      TreeLike .expression β r r' →
      TreeLike .expression β (.logical l operator r) (.logical l' operator' r')
  | ident {β : List Bool} {name name' : Tree} {depth : Option Nat} :
      NameLike ρ (markAt β depth) name name' →
      TreeLike .expression β (.ident name depth) (.ident name' depth)
  | assign {β : List Bool} {name name' e e' : Tree} {depth : Option Nat} :
      NameLike ρ (markAt β depth) name name' → TreeLike .expression β e e' →
      TreeLike .expression β (.assign name e depth) (.assign name' e' depth)
  | call {β : List Bool} {callee callee' paren paren' arguments arguments' : Tree} :
      TreeLike .expression β callee callee' → TokenLike ρ paren paren' →
      TreeLike .arguments β arguments arguments' →
      TreeLike .expression β (.call callee paren arguments) (.call callee' paren' arguments')
  | getField {β : List Bool} {object object' name name' : Tree} :
      TreeLike .expression β object object' → TokenLike ρ name name' →
      TreeLike .expression β (.getField object name) (.getField object' name')
  | setField {β : List Bool} {object object' name name' e e' : Tree} :
      TreeLike .expression β object object' → TokenLike ρ name name' →
      TreeLike .expression β e e' →
      TreeLike .expression β (.setField object name e) (.setField object' name' e')
  | thisRef {β : List Bool} {keyword keyword' : Tree} {depth : Option Nat} :
      NameLike ρ (markAt β depth) keyword keyword' →
      TreeLike .expression β (.thisRef keyword depth) (.thisRef keyword' depth)
  | superRef {β : List Bool} {keyword keyword' method method' : Tree} {depth : Option Nat} :
      NameLike ρ (markAt β depth) keyword keyword' → TokenLike ρ method method' →
      TreeLike .expression β (.superRef keyword method depth) (.superRef keyword' method' depth)

variable {ρ} {β : List Bool} {t t' : Tree}

theorem TokenLike.name_eq {t t' : Tree} (h : TokenLike ρ t t') : t'.asName = t.asName := by
  obtain ⟨a, a', rfl, rfl, -, hl, -⟩ := h
  show a'.name = a.name
  unfold Token.name
  rw [hl]

theorem NameLike.name_eq {marked : Bool} (h : NameLike ρ marked t t') :
    t'.asName = t.asName.map (ρ.rename marked) := by
  obtain ⟨a, a', rfl, rfl, hn, -⟩ := h
  exact hn

theorem TreeLike.isNull_eq (h : TreeLike ρ .statement β t t' ∨ TreeLike ρ .expression β t t') :
    t.isNull = false ∧ t'.isNull = false := by
  rcases h with h | h <;> cases h <;> exact ⟨rfl, rfl⟩

end Trees

/-! ## Settings -/

/-- The numbers of the scopes inside one more scope, which has the number zero. -/
def up (f : Nat → Nat) : Nat → Nat
  | 0 => 0
  | d + 1 => f d + 1

@[simp] theorem up_id : up id = id := by
  funext d
  cases d <;> rfl

/-- The setting of two trees: what becomes of the number of a scope around them, and the marks of
these scopes from the inside out. -/
structure Setting where
  number : Nat → Nat
  marks : List Bool

namespace Setting

/-- One scope further in. -/
def inside (π : Setting) (marked : Bool) : Setting :=
  ⟨up π.number, marked :: π.marks⟩

/-- The setting of the methods of a class. -/
def aroundMethods (π : Setting) (parent : Tree) : Setting :=
  (if parent.isNull then π else π.inside false).inside false

theorem number_aroundMethods {π : Setting} (h : π.number = id) (parent : Tree) :
    (π.aroundMethods parent).number = id := by
  unfold aroundMethods
  split <;> simp [inside, h]

theorem marks_aroundMethods (π : Setting) (parent : Tree) :
    (π.aroundMethods parent).marks = marksAroundMethods π.marks parent := by
  unfold aroundMethods marksAroundMethods
  split <;> rfl

end Setting

/-! ## Slots -/

/-- Both are faults, and the same one, or the values are related. -/
inductive SameFault {α α' : Type} (Q : α → α' → Prop) : Except Fault α → Except Fault α' → Prop where
  | ok {a : α} {a' : α'} (h : Q a a') : SameFault Q (.ok a) (.ok a')
  | error (fault : Fault) : SameFault Q (.error fault) (.error fault)

section SameFault

variable {α α' β β' : Type} {P : α → α' → Prop} {Q : β → β' → Prop} {r : Except Fault α}
  {r' : Except Fault α'} {k : α → Except Fault β} {k' : α' → Except Fault β'}

theorem SameFault.refl (r : Except Fault α) : SameFault (fun a a' => a' = a) r r := by
  cases r with
  | ok a => exact .ok rfl
  | error fault => exact .error fault

theorem SameFault.bind (h : SameFault P r r')
    (hk : ∀ {a a'}, P a a' → SameFault Q (k a) (k' a')) : SameFault Q (r >>= k) (r' >>= k') := by
  cases h with
  | ok h => exact hk h
  | error fault => exact .error fault

theorem SameFault.cases (h : SameFault P r r') :
    (∃ fault, r = .error fault ∧ r' = .error fault) ∨ ∃ a a', r = .ok a ∧ r' = .ok a' ∧ P a a' := by
  cases h with
  | ok h => exact .inr ⟨_, _, rfl, rfl, h⟩
  | error fault => exact .inl ⟨fault, rfl, rfl⟩

end SameFault

namespace Change

variable (ρ : Change)

/-- Nothing changes but what is not seen. -/
structure Faithful : Prop where
  name : ∀ n, ρ.name n = n
  line : ∀ {a b}, ρ.line a b → b = a

/-- The slots hold words of the same kind and text, or the same thing that is no word. -/
def Words (t t' : Tree) : Prop :=
  TokenLike ρ t t' ∨ t' = t ∧ ∀ a, ρ.line a a

/-- The slots hold names of the same thing, or the same thing that is no name. -/
def Names (marked : Bool) (t t' : Tree) : Prop :=
  NameLike ρ marked t t' ∨ t' = t ∧ (∀ a, ρ.line a a) ∧ ∀ n, ρ.rename marked n = n

variable {ρ} {t t' : Tree} {marked : Bool}

theorem Faithful.rename (h : ρ.Faithful) (marked : Bool) (n : Name) : ρ.rename marked n = n := by
  cases marked with
  | false => rfl
  | true => exact h.name n

theorem Words.names (h : ρ.Words t t') : ρ.Names false t t' := by
  rcases h with ⟨a, a', rfl, rfl, -, hl, hline⟩ | ⟨rfl, hline⟩
  · refine .inl ⟨a, a', rfl, rfl, ?_, hline⟩
    unfold Token.name
    rw [hl]
    cases a.lexeme <;> rfl
  · exact .inr ⟨rfl, hline, fun _ => rfl⟩

theorem Words.token (h : ρ.Words t t') :
    SameFault (fun a a' => a'.kind = a.kind ∧ a'.lexeme = a.lexeme ∧ ρ.line a.line a'.line)
      t.asToken t'.asToken := by
  rcases h with ⟨a, a', rfl, rfl, h⟩ | ⟨rfl, hline⟩
  · exact .ok h
  · cases t'.asToken with
    | ok a => exact .ok ⟨rfl, rfl, hline a.line⟩
    | error fault => exact .error fault

theorem Words.name_eq (h : ρ.Words t t') : t'.asName = t.asName := by
  rcases h with h | ⟨rfl, -⟩
  · exact h.name_eq
  · rfl

/-- The names in like slots are renamed. -/
theorem Names.name (h : ρ.Names marked t t') :
    SameFault (fun n n' => n' = ρ.rename marked n) t.asName t'.asName := by
  rcases h with h | ⟨rfl, -, hname⟩
  · rw [h.name_eq]
    cases t.asName with
    | ok n => exact .ok rfl
    | error fault => exact .error fault
  · cases t'.asName with
    | ok n => exact .ok (hname n).symm
    | error fault => exact .error fault

/-- Renamed tokens have renamed names. -/
theorem Names.token (h : ρ.Names marked t t') :
    SameFault (fun a a' => a'.name = a.name.map (ρ.rename marked) ∧ ρ.line a.line a'.line)
      t.asToken t'.asToken := by
  rcases h with ⟨a, a', rfl, rfl, h⟩ | ⟨rfl, hline, hname⟩
  · exact .ok h
  · cases t'.asToken with
    | ok a =>
      refine .ok ⟨?_, hline a.line⟩
      cases a.name with
      | ok n => exact congrArg Except.ok (hname n).symm
      | error fault => rfl
    | error fault => exact .error fault

end Change

/-- The parameters and the body of a function. -/
def Tree.routine (t : Tree) : Except Fault (List Tree × Tree) := do
  let (params, body) ← t.routineSlots
  let params ← params.asItems
  return (params, body)

/-! ## Forms -/

/-- The items of a sequence in this role. -/
def Role.item? : Role → Option Role
  | .body => some .statement
  | .arguments => some .expression
  | .members => some .method
  | _ => none

section Forms

variable (ρ : Change) (R : Role → Setting → Tree → Tree → Prop) (π : Setting)

/-- An optional part is missing in both trees, or the parts are related. -/
structure Optional (role : Role) (t t' : Tree) : Prop where
  isNull : t'.isNull = t.isNull
  like : t.isNull = false → R role π t t'

/-- Expressions of the same form whose parts are related by `R`, or trees that are no expressions
for the same reason. -/
inductive ExpressionForm : Tree → Tree → Prop where
  | literal {value : Tree} {serial : Option Nat} :
      ExpressionForm (.literal value serial) (.literal value serial)
  | grouping {e e' : Tree} : R .expression π e e' → ExpressionForm (.grouping e) (.grouping e')
  | unary {operator operator' e e' : Tree} : ρ.Words operator operator' →
      R .expression π e e' → ExpressionForm (.unary operator e) (.unary operator' e')
  | binary {operator operator' l l' r r' : Tree} : R .expression π l l' →
      ρ.Words operator operator' → R .expression π r r' →
      ExpressionForm (.binary l operator r) (.binary l' operator' r')
  | logical {operator operator' l l' r r' : Tree} : R .expression π l l' →
      ρ.Words operator operator' → R .expression π r r' →
      ExpressionForm (.logical l operator r) (.logical l' operator' r')
  | ident {name name' : Tree} {depth depth' : Option Nat} : depth' = depth.map π.number →
      ρ.Names (markAt π.marks depth) name name' →
      ExpressionForm (.ident name depth) (.ident name' depth')
  | assign {name name' e e' : Tree} {depth depth' : Option Nat} : depth' = depth.map π.number →
      ρ.Names (markAt π.marks depth) name name' → R .expression π e e' →
      ExpressionForm (.assign name e depth) (.assign name' e' depth')
  | call {callee callee' paren paren' arguments arguments' : Tree} :
      R .expression π callee callee' → ρ.Words paren paren' → R .arguments π arguments arguments' →
      ExpressionForm (.call callee paren arguments) (.call callee' paren' arguments')
  | getField {object object' name name' : Tree} : R .expression π object object' →
      ρ.Words name name' → ExpressionForm (.getField object name) (.getField object' name')
  | setField {object object' name name' e e' : Tree} : R .expression π object object' →
      ρ.Words name name' → R .expression π e e' →
      ExpressionForm (.setField object name e) (.setField object' name' e')
  | thisRef {keyword keyword' : Tree} {depth depth' : Option Nat} : depth' = depth.map π.number →
      ρ.Names (markAt π.marks depth) keyword keyword' →
      ExpressionForm (.thisRef keyword depth) (.thisRef keyword' depth')
  /-- The scope of `this` is right inside the one of `super` on both sides. -/
  | superRef {keyword keyword' method method' : Tree} {depth depth' : Option Nat} :
      depth' = depth.map π.number → (∀ d, depth = some d → π.number d - 1 = π.number (d - 1)) →
      ρ.Words method method' →
      ExpressionForm (.superRef keyword method depth) (.superRef keyword' method' depth')
  | misplaced {t t' : Tree} {fault : Fault}
      (left : ∀ rounds room, Exec.evaluate rounds (room + 1) t = throw (.fault fault))
      (right : ∀ rounds room, Exec.evaluate rounds (room + 1) t' = throw (.fault fault)) :
      ExpressionForm t t'

/-- Statements of the same form. Where a name is declared the innermost scope keeps its number. -/
inductive StatementForm : Tree → Tree → Prop where
  | exprStmt {e e' : Tree} : R .expression π e e' → StatementForm (.exprStmt e) (.exprStmt e')
  | printStmt {e e' : Tree} : R .expression π e e' → StatementForm (.printStmt e) (.printStmt e')
  | varDecl {name name' e e' : Tree} : π.number 0 = 0 →
      ρ.Names (π.marks.headD false) name name' → Optional R π .expression e e' →
      StatementForm (.varDecl name e) (.varDecl name' e')
  | block {marked : Bool} {items items' : Tree} : R .body (π.inside marked) items items' →
      StatementForm (.block items) (.block items')
  | ifElse {c c' t t' e e' : Tree} : R .expression π c c' → R .statement π t t' →
      Optional R π .statement e e' → StatementForm (.ifElse c t e) (.ifElse c' t' e')
  | whileLoop {c c' t t' : Tree} : R .expression π c c' → R .statement π t t' →
      StatementForm (.whileLoop c t) (.whileLoop c' t')
  | funDecl {name name' params params' body body' : Tree} : π.number 0 = 0 →
      ρ.Words name name' → ρ.Names (π.marks.headD false) name name' →
      R .method π (.funDecl name params body) (.funDecl name' params' body') →
      StatementForm (.funDecl name params body) (.funDecl name' params' body')
  | returnStmt {keyword keyword' e e' : Tree} : Optional R π .expression e e' →
      StatementForm (.returnStmt keyword e) (.returnStmt keyword' e')
  | classDecl {name name' parent parent' methods methods' : Tree} : π.number 0 = 0 →
      ρ.Words name name' → ρ.Names (π.marks.headD false) name name' →
      Optional R π .expression parent parent' →
      SameFault (fun n n' => ∃ marked, ρ.Names marked n n') parent.nameSlot parent'.nameSlot →
      R .members (π.aroundMethods parent) methods methods' →
      StatementForm (.classDecl name parent methods) (.classDecl name' parent' methods')
  | misplaced {t t' : Tree} {fault : Fault}
      (left : ∀ rounds room, Exec.execute rounds (room + 1) t = throw (.fault fault))
      (right : ∀ rounds room, Exec.execute rounds (room + 1) t' = throw (.fault fault)) :
      StatementForm t t'

/-- The routines of two functions: their parameters, and their bodies one scope further in. -/
def RoutineForm (r r' : List Tree × Tree) : Prop :=
  π.number 0 = 0 ∧ ∃ marked, List.Forall₂ (ρ.Names marked) r.1 r'.1 ∧
    R .body (π.inside marked) r.2 r'.2

/-- Two methods with the same name and like routines, or with the same fault. -/
structure MethodForm (t t' : Tree) : Prop where
  name : SameFault (fun a a' => a'.lexeme = a.lexeme) t.nameToken t'.nameToken
  routine : SameFault (RoutineForm ρ R π) t.routine t'.routine

end Forms

/-- Which trees may stand for each other in a setting. Their forms are the same, and their parts may
stand for each other again. -/
structure Correspondence where
  change : Change
  Like : Role → Setting → Tree → Tree → Prop
  isNull_eq : ∀ {role π t t'}, Like role π t t' → t'.isNull = t.isNull
  expression : ∀ {π t t'}, Like .expression π t t' → ExpressionForm change Like π t t'
  statement : ∀ {π t t'}, Like .statement π t t' → StatementForm change Like π t t'
  method : ∀ {π t t'}, Like .method π t t' → MethodForm change Like π t t'
  items : ∀ {role item π t t'}, role.item? = some item → Like role π t t' →
    SameFault (List.Forall₂ (Like item π)) t.asItems t'.asItems
  /-- Whether the machines that run them are to trace the same. -/
  traced : Prop
  faithful : traced → change.Faithful
  /-- Whether these machines are to be ordered. -/
  ordered : Prop

end LoxLang
