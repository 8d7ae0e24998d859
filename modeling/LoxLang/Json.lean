import LoxLang.Bindings
import LoxLang.Scalar

/-!
# Documents

JSON values. Integers and other numbers are kept apart, and the fields of an object stand in the
order in which they were first written.
-/

namespace LoxLang

/-- A document: JSON data. -/
inductive Json where
  | scalar (s : Scalar)
  | array (items : List Json)
  | object (fields : List (String × Json))
deriving Inhabited, Repr

namespace Json

/-- The document `null`. -/
def null : Json := scalar .nil

/-- A boolean as a document. -/
def bool (b : Bool) : Json := scalar (.bool b)

/-- An integer as a document. -/
def int (n : Int) : Json := scalar (.int n)

/-- A text as a document. -/
def str (s : String) : Json := scalar (.str s)

/-- The value of a field. -/
def field? (key : String) : Json → Option Json
  | object fields => Bindings.entry? key fields
  | _ => none

mutual

/-- Equality of documents. The order of the fields of an object does not count. -/
def agrees : Json → Json → Bool
  | scalar a, scalar b => a.agrees b
  | array as, array bs => itemsAgree as bs
  | object as, object bs => as.length == bs.length && fieldsAgree as bs
  | _, _ => false

/-- The lists agree item by item. -/
def itemsAgree : List Json → List Json → Bool
  | [], [] => true
  | a :: as, b :: bs => agrees a b && itemsAgree as bs
  | _, _ => false

/-- Each of the first fields agrees with the second field of the same key. -/
def fieldsAgree : List (String × Json) → List (String × Json) → Bool
  | [], _ => true
  | (key, a) :: as, bs =>
    (match Bindings.entry? key bs with
      | some b => agrees a b
      | none => false) && fieldsAgree as bs

end

/-- Documents are equal if they agree. -/
instance : BEq Json := ⟨agrees⟩

end Json

end LoxLang
