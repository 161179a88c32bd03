import MatrixScript.Fault
import MatrixScript.RatMatrix

/-!
# Errors of builtins

A builtin does not know where it is called, so its errors carry no spans.  `InvocationError.locate`
adds them.
-/

namespace MatrixScript

inductive InvocationError
  | undefinedFunction (name : String) (suggestions : List String)
  | reservedName (name : String)
  | tooManyArguments (name : String) (expected given : Nat)
  | missingArgument (name : String) (index expected given : Nat)
  | typeMismatch (name : String) (index : Nat) (expected given : String)
  | invalidBinaryOperation (op left right : String)
  | arithmetic (error : ArithmeticError)
  | matrix (name : String) (error : MatrixError)
  | output (reason : String)
deriving DecidableEq, Repr

namespace InvocationError

/-- The error of the builtin `name` on matrices; an arithmetic error is the same as on scalars. -/
def ofMatrixError (name : String) : MatrixError → InvocationError
  | .arithmetic error => .arithmetic error
  | error => .matrix name error

/-- The fault of an invocation whose name or operator is at `callee` and whose arguments are at
`args`.  An argument that is not there is looked for at `callee`. -/
def locate (callee : Span) (args : List Span) (error : InvocationError) : Fault :=
  let whole := args.foldl Span.hull callee
  let arg (i : Nat) := args.getD i callee
  match error with
  | .undefinedFunction name suggestions => ⟨.undefinedFunction name suggestions, [callee]⟩
  | .reservedName name => ⟨.reservedName name, [arg 0]⟩
  | .tooManyArguments name expected given => ⟨.tooManyArguments name expected given, [whole]⟩
  | .missingArgument name index expected given =>
    ⟨.missingArgument name index expected given, [whole]⟩
  | .typeMismatch name index expected given =>
    ⟨.typeMismatch name index expected given, [callee, arg index]⟩
  | .invalidBinaryOperation op left right =>
    ⟨.invalidBinaryOperation op left right, [arg 0, callee, arg 1]⟩
  | .arithmetic error | .matrix _ (.arithmetic error) => ⟨.arithmetic error, [whole]⟩
  | .matrix _ (.shapeMismatch op left right) =>
    ⟨.shapeMismatch op left right, [arg 0, callee, arg 1]⟩
  | .matrix name (.notSquare rows cols) => ⟨.notSquare name rows cols, [callee, arg 0]⟩
  | .matrix _ .singular => ⟨.singularMatrix, [callee, arg 0]⟩
  | .matrix _ .empty => ⟨.emptyMatrix, [whole]⟩
  | .matrix _ (.ragged _ expected found) => ⟨.raggedMatrix expected found, [whole]⟩
  | .output reason => ⟨.outputFailed reason, [whole]⟩

end InvocationError

end MatrixScript
