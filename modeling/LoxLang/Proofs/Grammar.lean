import LoxLang.Tree
import LoxLang.Problem

/-!
# The grammar

Which lists of tokens are programs, and which trees they stand for. `Derives` has one rule for each
production. What a symbol derives is a list of trees: one for an expression or a statement, none or
one where the grammar allows to leave something out, and any number for a sequence.

The grammar leaves open which `if` an `else` belongs to. A statement is `dangling` if it ends in an
`if` without an `else`, so that an `else` after it could be a part of it. With `nearest` an `else`
never follows a dangling statement, and so belongs to the nearest `if`. Without it every reading is
allowed.

Binary operators group to the left, since their left operand is of the same level and the right one
of the next level. An assignment groups to the right.
-/

namespace LoxLang.Grammar

/-- The levels of binary operators, loose ones first. -/
inductive Level where
  | or
  | and
  | equality
  | comparison
  | term
  | factor
deriving DecidableEq, Repr

/-- The operators of a level. -/
def Level.kinds : Level → List Token.Kind
  | or => [.kwOr]
  | and => [.kwAnd]
  | equality => [.equalEqual, .bangEqual]
  | comparison => [.less, .lessEqual, .greater, .greaterEqual]
  | term => [.plus, .minus]
  | factor => [.star, .slash]

/-- The tree of an operator with its operands. The operators that may skip an operand have a form of
their own. -/
def Level.tree : Level → Tree → Tree → Tree → Tree
  | or | and => .logical
  | equality | comparison | term | factor => .binary

/-- The symbols of the grammar. -/
inductive Symbol where
  | program
  | declarations
  | declaration (dangling : Bool)
  | classDecl
  | methods
  | funDecl
  | function
  | parameters
  | names
  | varDecl
  | statement (dangling : Bool)
  | block
  | exprStmt
  | forStart
  | clause
  | expression
  | assignment
  | binary (level : Level)
  | unary
  | call
  | primary
  | arguments
  | expressions
deriving DecidableEq, Repr

/-- What the operators of a level join. -/
def Level.operand : Level → Symbol
  | or => .binary .and
  | and => .binary .equality
  | equality => .binary .comparison
  | comparison => .binary .term
  | term => .binary .factor
  | factor => .unary

/-- A `for` loop. The increment runs after the body in a block of its own, a condition that is left
out is true, and the initializer stands before the loop in a block around both. -/
def forLoop (start condition step : List Tree) (body : Tree) : Tree :=
  let round := match step with
    | [] => body
    | e :: _ => .block (.list [body, .exprStmt e])
  let loop := .whileLoop (condition.headD (.literal (.scalar (.bool true)) none)) round
  match start with
  | [] => loop
  | s :: _ => .block (.list [s, loop])

/-- The symbol derives the tokens, which stand for the trees. -/
inductive Derives (nearest : Bool) : Symbol → List Token → List Tree → Prop where
  -- programs and declarations
  | program {ts : List Token} {trees : List Tree} :
      Derives nearest .declarations ts trees → Derives nearest .program ts trees
  | noDeclaration : Derives nearest .declarations [] []
  | moreDeclarations {d : Bool} {ts us : List Token} {t : Tree} {trees : List Tree} :
      Derives nearest (.declaration d) ts [t] → Derives nearest .declarations us trees →
      Derives nearest .declarations (ts ++ us) (t :: trees)
  | declareClass {ts : List Token} {t : Tree} :
      Derives nearest .classDecl ts [t] → Derives nearest (.declaration false) ts [t]
  | declareFun {ts : List Token} {t : Tree} :
      Derives nearest .funDecl ts [t] → Derives nearest (.declaration false) ts [t]
  | declareVar {ts : List Token} {t : Tree} :
      Derives nearest .varDecl ts [t] → Derives nearest (.declaration false) ts [t]
  | statement {d : Bool} {ts : List Token} {t : Tree} :
      Derives nearest (.statement d) ts [t] → Derives nearest (.declaration d) ts [t]
  | rootClass {kw name opening closing : Token} {ts : List Token} {ms : List Tree} :
      kw.kind = .kwClass → name.kind = .identifier → opening.kind = .leftBrace →
      Derives nearest .methods ts ms → closing.kind = .rightBrace →
      Derives nearest .classDecl (kw :: name :: opening :: (ts ++ [closing]))
        [.classDecl (.token name) .null (.list ms)]
  | subclass {kw name less parent opening closing : Token} {ts : List Token} {ms : List Tree} :
      kw.kind = .kwClass → name.kind = .identifier → less.kind = .less →
      parent.kind = .identifier → opening.kind = .leftBrace →
      Derives nearest .methods ts ms → closing.kind = .rightBrace →
      Derives nearest .classDecl (kw :: name :: less :: parent :: opening :: (ts ++ [closing]))
        [.classDecl (.token name) (.ident (.token parent) none) (.list ms)]
  | noMethod : Derives nearest .methods [] []
  | moreMethods {ts us : List Token} {t : Tree} {trees : List Tree} :
      Derives nearest .function ts [t] → Derives nearest .methods us trees →
      Derives nearest .methods (ts ++ us) (t :: trees)
  | funDecl {kw : Token} {ts : List Token} {t : Tree} :
      kw.kind = .kwFun → Derives nearest .function ts [t] → Derives nearest .funDecl (kw :: ts) [t]
  | function {name opening closing : Token} {ps ts : List Token} {params body : List Tree} :
      name.kind = .identifier → opening.kind = .leftParen → Derives nearest .parameters ps params →
      closing.kind = .rightParen → Derives nearest .block ts body →
      Derives nearest .function (name :: opening :: (ps ++ closing :: ts))
        [.funDecl (.token name) (.list params) (.list body)]
  | noParameter : Derives nearest .parameters [] []
  | parameters {ts : List Token} {params : List Tree} :
      Derives nearest .names ts params → params.length ≤ maxArguments →
      Derives nearest .parameters ts params
  | name {t : Token} : t.kind = .identifier → Derives nearest .names [t] [.token t]
  | moreNames {t comma : Token} {ts : List Token} {params : List Tree} :
      t.kind = .identifier → comma.kind = .comma → Derives nearest .names ts params →
      Derives nearest .names (t :: comma :: ts) (.token t :: params)
  | emptyVar {kw name semi : Token} :
      kw.kind = .kwVar → name.kind = .identifier → semi.kind = .semicolon →
      Derives nearest .varDecl [kw, name, semi] [.varDecl (.token name) .null]
  | varDecl {kw name equal semi : Token} {ts : List Token} {e : Tree} :
      kw.kind = .kwVar → name.kind = .identifier → equal.kind = .equal →
      Derives nearest .expression ts [e] → semi.kind = .semicolon →
      Derives nearest .varDecl (kw :: name :: equal :: (ts ++ [semi])) [.varDecl (.token name) e]
  -- statements
  | exprStmt {semi : Token} {ts : List Token} {e : Tree} :
      Derives nearest .expression ts [e] → semi.kind = .semicolon →
      Derives nearest .exprStmt (ts ++ [semi]) [.exprStmt e]
  | expressionStatement {ts : List Token} {t : Tree} :
      Derives nearest .exprStmt ts [t] → Derives nearest (.statement false) ts [t]
  | forStatement {d : Bool} {kw opening semi closing : Token} {ts us vs ws : List Token}
      {start condition step : List Tree} {body : Tree} :
      kw.kind = .kwFor → opening.kind = .leftParen → Derives nearest .forStart ts start →
      Derives nearest .clause us condition → semi.kind = .semicolon →
      Derives nearest .clause vs step → closing.kind = .rightParen →
      Derives nearest (.statement d) ws [body] →
      Derives nearest (.statement d)
        (kw :: opening :: (ts ++ (us ++ semi :: (vs ++ closing :: ws))))
        [forLoop start condition step body]
  | ifStatement {d : Bool} {kw opening closing : Token} {ts us : List Token} {c t : Tree} :
      kw.kind = .kwIf → opening.kind = .leftParen → Derives nearest .expression ts [c] →
      closing.kind = .rightParen → Derives nearest (.statement d) us [t] →
      Derives nearest (.statement true) (kw :: opening :: (ts ++ closing :: us))
        [.ifElse c t .null]
  | ifElse {d d' : Bool} {kw opening closing kwElse : Token} {ts us vs : List Token}
      {c t e : Tree} :
      kw.kind = .kwIf → opening.kind = .leftParen → Derives nearest .expression ts [c] →
      closing.kind = .rightParen → Derives nearest (.statement d) us [t] →
      (nearest = true → d = false) →
      kwElse.kind = .kwElse → Derives nearest (.statement d') vs [e] →
      Derives nearest (.statement d') (kw :: opening :: (ts ++ closing :: (us ++ kwElse :: vs)))
        [.ifElse c t e]
  | printStatement {kw semi : Token} {ts : List Token} {e : Tree} :
      kw.kind = .kwPrint → Derives nearest .expression ts [e] → semi.kind = .semicolon →
      Derives nearest (.statement false) (kw :: (ts ++ [semi])) [.printStmt e]
  | returnStatement {kw semi : Token} {ts : List Token} {value : List Tree} :
      kw.kind = .kwReturn → Derives nearest .clause ts value → semi.kind = .semicolon →
      Derives nearest (.statement false) (kw :: (ts ++ [semi]))
        [.returnStmt (.token kw) (value.headD .null)]
  | whileStatement {d : Bool} {kw opening closing : Token} {ts us : List Token} {c t : Tree} :
      kw.kind = .kwWhile → opening.kind = .leftParen → Derives nearest .expression ts [c] →
      closing.kind = .rightParen → Derives nearest (.statement d) us [t] →
      Derives nearest (.statement d) (kw :: opening :: (ts ++ closing :: us)) [.whileLoop c t]
  | blockStatement {ts : List Token} {body : List Tree} :
      Derives nearest .block ts body → Derives nearest (.statement false) ts [.block (.list body)]
  | block {opening closing : Token} {ts : List Token} {body : List Tree} :
      opening.kind = .leftBrace → Derives nearest .declarations ts body →
      closing.kind = .rightBrace → Derives nearest .block (opening :: (ts ++ [closing])) body
  | noStart {semi : Token} : semi.kind = .semicolon → Derives nearest .forStart [semi] []
  | startVar {ts : List Token} {t : Tree} :
      Derives nearest .varDecl ts [t] → Derives nearest .forStart ts [t]
  | startExpression {ts : List Token} {t : Tree} :
      Derives nearest .exprStmt ts [t] → Derives nearest .forStart ts [t]
  | noClause : Derives nearest .clause [] []
  | clause {ts : List Token} {e : Tree} :
      Derives nearest .expression ts [e] → Derives nearest .clause ts [e]
  -- expressions
  | expression {ts : List Token} {e : Tree} :
      Derives nearest .assignment ts [e] → Derives nearest .expression ts [e]
  | assignName {name equal : Token} {ts : List Token} {v : Tree} :
      name.kind = .identifier → equal.kind = .equal → Derives nearest .assignment ts [v] →
      Derives nearest .assignment (name :: equal :: ts) [.assign (.token name) v none]
  | assignField {dot name equal : Token} {ts us : List Token} {o v : Tree} :
      Derives nearest .call ts [o] → dot.kind = .dot → name.kind = .identifier →
      equal.kind = .equal → Derives nearest .assignment us [v] →
      Derives nearest .assignment (ts ++ dot :: name :: equal :: us)
        [.setField o (.token name) v]
  | noAssignment {ts : List Token} {e : Tree} :
      Derives nearest (.binary .or) ts [e] → Derives nearest .assignment ts [e]
  | operand {level : Level} {ts : List Token} {e : Tree} :
      Derives nearest level.operand ts [e] → Derives nearest (.binary level) ts [e]
  | operator {level : Level} {op : Token} {ts us : List Token} {l r : Tree} :
      Derives nearest (.binary level) ts [l] → op.kind ∈ level.kinds →
      Derives nearest level.operand us [r] →
      Derives nearest (.binary level) (ts ++ op :: us) [level.tree l (.token op) r]
  | unary {op : Token} {ts : List Token} {r : Tree} :
      op.kind = .bang ∨ op.kind = .minus → Derives nearest .unary ts [r] →
      Derives nearest .unary (op :: ts) [.unary (.token op) r]
  | noUnary {ts : List Token} {e : Tree} :
      Derives nearest .call ts [e] → Derives nearest .unary ts [e]
  | callee {ts : List Token} {e : Tree} :
      Derives nearest .primary ts [e] → Derives nearest .call ts [e]
  | call {opening closing : Token} {ts us : List Token} {c : Tree} {args : List Tree} :
      Derives nearest .call ts [c] → opening.kind = .leftParen →
      Derives nearest .arguments us args → closing.kind = .rightParen →
      Derives nearest .call (ts ++ opening :: (us ++ [closing]))
        [.call c (.token closing) (.list args)]
  | getField {dot name : Token} {ts : List Token} {o : Tree} :
      Derives nearest .call ts [o] → dot.kind = .dot → name.kind = .identifier →
      Derives nearest .call (ts ++ [dot, name]) [.getField o (.token name)]
  | noArgument : Derives nearest .arguments [] []
  | arguments {ts : List Token} {args : List Tree} :
      Derives nearest .expressions ts args → args.length ≤ maxArguments →
      Derives nearest .arguments ts args
  | oneExpression {ts : List Token} {e : Tree} :
      Derives nearest .expression ts [e] → Derives nearest .expressions ts [e]
  | moreExpressions {comma : Token} {ts us : List Token} {e : Tree} {es : List Tree} :
      Derives nearest .expression ts [e] → comma.kind = .comma →
      Derives nearest .expressions us es →
      Derives nearest .expressions (ts ++ comma :: us) (e :: es)
  | number {t : Token} :
      t.kind = .number → Derives nearest .primary [t] [.literal (.ofJson t.literal) none]
  | string {t : Token} :
      t.kind = .string → Derives nearest .primary [t] [.literal (.ofJson t.literal) none]
  | trueLiteral {t : Token} :
      t.kind = .kwTrue → Derives nearest .primary [t] [.literal (.scalar (.bool true)) none]
  | falseLiteral {t : Token} :
      t.kind = .kwFalse → Derives nearest .primary [t] [.literal (.scalar (.bool false)) none]
  | nilLiteral {t : Token} : t.kind = .kwNil → Derives nearest .primary [t] [.literal .null none]
  | group {opening closing : Token} {ts : List Token} {e : Tree} :
      opening.kind = .leftParen → Derives nearest .expression ts [e] →
      closing.kind = .rightParen →
      Derives nearest .primary (opening :: (ts ++ [closing])) [.grouping e]
  | identifier {t : Token} :
      t.kind = .identifier → Derives nearest .primary [t] [.ident (.token t) none]
  | thisKeyword {t : Token} :
      t.kind = .kwThis → Derives nearest .primary [t] [.thisRef (.token t) none]
  | superMethod {t dot name : Token} :
      t.kind = .kwSuper → dot.kind = .dot → name.kind = .identifier →
      Derives nearest .primary [t, dot, name] [.superRef (.token t) (.token name) none]

variable {b : Bool} {sym : Symbol} {ts : List Token} {trees : List Tree}

/-! ## First tokens -/

/-- The symbols that may derive no token. -/
def Symbol.nullable : Symbol → Bool
  | .program | .declarations | .methods | .parameters | .clause | .arguments => true
  | _ => false

/-- The kinds of tokens that an expression without operators starts with. -/
def primaryStarts : List Token.Kind :=
  [.number, .string, .kwTrue, .kwFalse, .kwNil, .leftParen, .identifier, .kwThis, .kwSuper]

/-- The kinds that an expression starts with. -/
def expressionStarts : List Token.Kind :=
  [.bang, .minus] ++ primaryStarts

/-- The kinds that a statement starts with. -/
def statementStarts : List Token.Kind :=
  [.kwFor, .kwIf, .kwPrint, .kwReturn, .kwWhile, .leftBrace] ++ expressionStarts

/-- The kinds that a declaration starts with. -/
def declarationStarts : List Token.Kind :=
  [.kwClass, .kwFun, .kwVar] ++ statementStarts

/-- The kinds of tokens that a symbol can start with. A symbol that may derive no token has none. -/
def Symbol.starts : Symbol → List Token.Kind
  | .declaration _ => declarationStarts
  | .classDecl => [.kwClass]
  | .funDecl => [.kwFun]
  | .varDecl => [.kwVar]
  | .function | .names => [.identifier]
  | .statement _ => statementStarts
  | .block => [.leftBrace]
  | .forStart => [.semicolon, .kwVar] ++ expressionStarts
  | .exprStmt | .expression | .assignment | .binary _ | .unary | .expressions => expressionStarts
  | .call | .primary => primaryStarts
  | _ => []

/-- There is a first token, and it is of one of the kinds. -/
def StartsWith (ts : List Token) (kinds : List Token.Kind) : Prop :=
  ∃ t us, ts = t :: us ∧ t.kind ∈ kinds

theorem StartsWith.append {kinds : List Token.Kind} (h : StartsWith ts kinds) (us : List Token) :
    StartsWith (ts ++ us) kinds := by
  obtain ⟨t, vs, rfl, ht⟩ := h
  exact ⟨t, vs ++ us, rfl, ht⟩

theorem StartsWith.mono {kinds kinds' : List Token.Kind} (h : StartsWith ts kinds)
    (hs : kinds ⊆ kinds') : StartsWith ts kinds' := by
  obtain ⟨t, vs, rfl, ht⟩ := h
  exact ⟨t, vs, rfl, hs ht⟩

theorem startsWith_cons {t : Token} {kind : Token.Kind} {kinds : List Token.Kind}
    (ht : t.kind = kind) (hk : kind ∈ kinds) (us : List Token) : StartsWith (t :: us) kinds :=
  ⟨t, us, rfl, ht ▸ hk⟩

theorem Level.starts_operand (l : Level) : l.operand.starts = expressionStarts := by
  cases l <;> rfl

theorem Level.nullable_operand (l : Level) : l.operand.nullable = false := by
  cases l <;> rfl

/-- What a symbol derives starts with one of its tokens. -/
theorem Derives.startsWith (h : Derives b sym ts trees) (hs : sym.nullable = false) :
    StartsWith ts sym.starts := by
  induction h with
  | declareClass _ ih | declareFun _ ih | declareVar _ ih | expressionStatement _ ih
  | blockStatement _ ih | startVar _ ih | startExpression _ ih | expression _ ih | noAssignment _ ih
  | noUnary _ ih | callee _ ih | oneExpression _ ih => exact (ih rfl).mono (by decide)
  | statement _ ih => exact (ih rfl).mono (List.subset_append_right _ _)
  | @operand level _ _ _ ih =>
    have hi := ih level.nullable_operand
    rwa [level.starts_operand] at hi
  | exprStmt _ _ ih | operator _ _ _ ih _ | call _ _ _ _ ih _ | getField _ _ _ ih
  | moreExpressions _ _ _ ih _ => exact (ih rfl).append _
  | assignField _ _ _ _ _ ih => exact ((ih rfl).append _).mono (by decide)
  | unary h =>
    rcases h with h | h
    · exact startsWith_cons h (by decide) _
    · exact startsWith_cons h (by decide) _
  | rootClass h | subclass h | funDecl h | function h | name h | moreNames h | emptyVar h | varDecl h
  | ifStatement h | printStatement h | returnStatement h | block h | noStart h | assignName h
  | number h | string h | trueLiteral h | falseLiteral h | nilLiteral h | group h
  | identifier h | thisKeyword h | superMethod h =>
    exact startsWith_cons h (by decide) _
  | forStatement h | ifElse h | whileStatement h =>
    exact startsWith_cons h (by simp [Symbol.starts, statementStarts]) _
  | _ => cases hs

theorem Derives.ne_nil (h : Derives b sym ts trees) (hs : sym.nullable = false) : ts ≠ [] := by
  obtain ⟨t, us, rfl, -⟩ := h.startsWith hs
  simp

theorem Derives.declarations_startsWith (h : Derives b .declarations ts trees) :
    ts = [] ∨ StartsWith ts declarationStarts := by
  cases h with
  | noDeclaration => exact .inl rfl
  | moreDeclarations h => exact .inr ((h.startsWith rfl).append _)

end LoxLang.Grammar
