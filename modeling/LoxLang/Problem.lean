/-!
# Static problems

What the scanner, the parser and the resolver can find wrong with a program, and the wording of
each.
-/

namespace LoxLang

/-- What a declaration with parameters and a body is called. -/
inductive Routine where
  | function
  | method
deriving DecidableEq, Repr

/-- What a message calls the routine. -/
def Routine.name : Routine → String
  | function => "function"
  | method => "method"

/-- What the parser needs to see next. -/
inductive Expected where
  | className
  | superclassName
  | classBody
  | classEnd
  | routineName (r : Routine)
  | parameters (r : Routine)
  | parameterName
  | parametersEnd
  | routineBody (r : Routine)
  | variableName
  | variableEnd
  | forClauses
  | loopConditionEnd
  | forClausesEnd
  | ifCondition
  | whileCondition
  | conditionEnd
  | valueEnd
  | returnEnd
  | blockEnd
  | argumentsEnd
  | propertyName
  | superDot
  | superMethod
  | groupEnd
  | expression
deriving DecidableEq, Repr

/-- What the parser expects, in the words of its message. -/
def Expected.text : Expected → String
  | className => "class name"
  | superclassName => "superclass name"
  | classBody => "'\x7b' before class body"
  | classEnd => "'\x7d' after class body"
  | routineName r => r.name ++ " name"
  | parameters r => "'(' after " ++ r.name ++ " name"
  | parameterName => "parameter name"
  | parametersEnd => "')' after parameters"
  | routineBody r => "'\x7b' before " ++ r.name ++ " body"
  | variableName => "variable name"
  | variableEnd => "';' after variable declaration"
  | forClauses => "'(' after 'for'"
  | loopConditionEnd => "';' after loop condition"
  | forClausesEnd => "')' after for clauses"
  | ifCondition => "'(' after 'if'"
  | whileCondition => "'(' after 'while'"
  | conditionEnd => "')' after condition"
  | valueEnd => "';' after value"
  | returnEnd => "';' after return value"
  | blockEnd => "'\x7d' after block"
  | argumentsEnd => "')' after arguments"
  | propertyName => "property name after '.'"
  | superDot => "'.' after 'super'"
  | superMethod => "superclass method name"
  | groupEnd => "')' after expression"
  | expression => "expression"

/-- What can be wrong with a program before it is run. -/
inductive Problem where
  | unexpectedCharacter
  | unterminatedString
  | expected (what : Expected)
  | tooManyParameters
  | tooManyArguments
  | invalidTarget
  | tooDeep
  | ownInitializer
  | topLevelReturn
  | initializerReturn
  | thisOutsideClass
  | superOutsideClass
  | superWithoutSuperclass
  | ownSuperclass
  /-- A problem that the caller words. -/
  | custom (text : String)
deriving DecidableEq, Repr

/-- The most parameters or arguments that a list can have. -/
def maxArguments : Nat := 255

/-- The message of a problem. -/
def Problem.text : Problem → String
  | unexpectedCharacter => "Unexpected character."
  | unterminatedString => "Unterminated string."
  | expected what => "Expect " ++ what.text ++ "."
  | tooManyParameters => "Can't have more than " ++ toString maxArguments ++ " parameters."
  | tooManyArguments => "Can't have more than " ++ toString maxArguments ++ " arguments."
  | invalidTarget => "Invalid assignment target."
  | tooDeep => "Nesting too deep."
  | ownInitializer => "Can't read local variable in its own initializer."
  | topLevelReturn => "Can't return from top-level code."
  | initializerReturn => "Can't return a value from an initializer."
  | thisOutsideClass => "Can't use 'this' outside of a class."
  | superOutsideClass => "Can't use 'super' outside of a class."
  | superWithoutSuperclass => "Can't use 'super' in a class with no superclass."
  | ownSuperclass => "A class can't inherit from itself."
  | custom text => text

end LoxLang
