import MatrixScript.Fraction
import MatrixScript.Token

/-!
# Faults

A `Fault` is the cause that stops a script together with the spans it concerns.  How a fault is
worded is said once, in `Cause.report`.
-/

namespace MatrixScript

inductive Cause
  -- reading a script
  | unexpectedEnd
  | unexpectedToken (expected : List TokenKind) (found : TokenKind)
  | invalidStatement
  | expectedCall (name : String)
  | missingSemicolon
  | expectedVariableName
  | missingAssign
  | emptyExpression
  | expectedOperator
  | unclosedParenthesis (opening : Bool)
  | commaInGroup
  | nestedVector
  | expectedRow
  | unclosedBracket
  | integerOverflow
  | numberBeforeName
  -- looking up names
  | undefinedVariable (name : String)
  | undefinedFunction (name : String) (suggestions : List String)
  | reservedName (name : String)
  -- evaluating
  | tooManyArguments (name : String) (expected given : Nat)
  | missingArgument (name : String) (index expected given : Nat)
  | typeMismatch (name : String) (index : Nat) (expected given : String)
  | invalidBinaryOperation (op left right : String)
  | invalidUnaryOperation (op operand : String)
  | malformedExpression
  | nonScalarElement (given : String)
  | emptyMatrix
  | raggedMatrix (expected found : Nat)
  | arithmetic (error : ArithmeticError)
  | shapeMismatch (op : String) (left right : Nat × Nat)
  | notSquare (name : String) (rows cols : Nat)
  | singularMatrix
  | outputFailed (reason : String)
deriving DecidableEq, Repr

structure Fault where
  cause : Cause
  spans : List Span
deriving DecidableEq, Repr

inductive Category
  | syntaxError
  | nameError
  | runtimeError
deriving DecidableEq, Repr

def Category.label : Category → String
  | .syntaxError => "SyntaxError"
  | .nameError => "NameError"
  | .runtimeError => "RuntimeError"

end MatrixScript
