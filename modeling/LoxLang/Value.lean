import LoxLang.Diagnostic
import LoxLang.Tree

/-!
# Values

What an expression can evaluate to. Functions, classes and objects live in a store and are referred
to by their place in it, so that two of them are equal exactly if they are the same one.

A literal of a document may hold something that is no value of the language: an integer, a list, a
token or a whole tree. Such a datum is equal to itself alone, which the serial number of its literal
tells, but for small integers, of which there is only one each.
-/

namespace LoxLang

/-- A scope of a running program. -/
structure ScopeRef where
  index : Nat
deriving DecidableEq, Repr, Inhabited

/-- A function of the store. -/
structure FunctionRef where
  index : Nat
deriving DecidableEq, Repr

/-- A class of the store. -/
structure ClassRef where
  index : Nat
deriving DecidableEq, Repr

/-- An object of the store. -/
structure ObjectRef where
  index : Nat
deriving DecidableEq, Repr

/-- The functions that are there from the start. -/
inductive Native where
  | clock
deriving DecidableEq, Repr

/-- The name that a native function is bound to. -/
def Native.name : Native → String
  | clock => "clock"

/-- A value of the language. -/
inductive Value where
  | scalar (s : Scalar)
  | native (f : Native)
  | function (f : FunctionRef)
  | cls (c : ClassRef)
  | object (o : ObjectRef)
  /-- What a literal holds that is no value of the language, with its serial number. -/
  | datum (t : Tree) (serial : Option Nat)
deriving Inhabited

namespace Value

/-- The value `nil`. -/
def nil : Value := scalar .nil

/-- The value of a literal. -/
def ofLiteral (t : Tree) (serial : Option Nat) : Value :=
  match t with
  | .scalar (.int _) => datum t serial
  | .scalar s => scalar s
  | t => datum t serial

/-- What a condition takes for true: all but `nil` and `false`. -/
def truthy : Value → Bool
  | scalar s => s.truthy
  | _ => true

/-- The integers of which there is only one each. -/
def isSmall (n : Int) : Bool :=
  -5 ≤ n && n ≤ 256

/-- Two literals hold the same datum. -/
def sameDatum (t u : Tree) (i j : Option Nat) : Bool :=
  (i.isSome && i == j) ||
    match t, u with
    | .scalar (.int m), .scalar (.int n) => isSmall m && m == n
    | _, _ => false

/-- Equality of the language. -/
def equal : Value → Value → Bool
  | scalar a, scalar b => a.equal b
  | native f, native g => f = g
  | function f, function g => f = g
  | cls c, cls d => c = d
  | object o, object p => o = p
  | datum t i, datum u j => sameDatum t u i j
  | _, _ => false

/-! ## Operators -/

/-- Minus and not. -/
def unary (kind : Token.Kind) (right : Value) : Except RuntimeCause Value :=
  match kind, right with
  | .minus, scalar (.num x) => .ok (scalar (.num (-x)))
  | .minus, _ => .error .operandNotNumber
  | .bang, v => .ok (scalar (.bool !v.truthy))
  | _, _ => .error .unknownUnary

/-- Sums of numbers and of strings. -/
def add : Value → Value → Except RuntimeCause Value
  | scalar (.num x), scalar (.num y) => .ok (scalar (.num (x + y)))
  | scalar (.str s), scalar (.str t) => .ok (scalar (.str (s ++ t)))
  | _, _ => .error .operandsNotAddable

/-- The operators on two numbers. -/
def arithmetic (kind : Token.Kind) (x y : Float) : Except RuntimeCause Scalar :=
  match kind with
  | .minus => .ok (.num (x - y))
  | .star => .ok (.num (x * y))
  | .slash => .ok (.num (x / y))
  | .greater => .ok (.bool (y < x))
  | .greaterEqual => .ok (.bool (y ≤ x))
  | .less => .ok (.bool (x < y))
  | .lessEqual => .ok (.bool (x ≤ y))
  | _ => .error .unknownBinary

/-- The binary operators. Only the kind of the operator's token counts. -/
def binary (kind : Token.Kind) (left right : Value) : Except RuntimeCause Value :=
  match kind with
  | .plus => add left right
  | .equalEqual => .ok (scalar (.bool (left.equal right)))
  | .bangEqual => .ok (scalar (.bool !left.equal right))
  | kind =>
    match left, right with
    | scalar (.num x), scalar (.num y) => (arithmetic kind x y).map scalar
    | _, _ => .error .operandsNotNumbers

end Value

end LoxLang
