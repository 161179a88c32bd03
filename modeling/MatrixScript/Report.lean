import MatrixScript.Fault
import MatrixScript.RatMatrix

/-!
# Reports

The wording of every cause: its category, a message, one label for each span it expects, and
possibly a help line and a note.
-/

namespace MatrixScript

structure Report where
  category : Category
  message : String
  labels : List String
  help : Option String := none
  note : Option String := none
deriving DecidableEq, Repr

namespace Cause

def category : Cause → Category
  | .undefinedVariable _ | .undefinedFunction _ _ | .reservedName _ => .nameError
  | .tooManyArguments .. | .missingArgument .. | .typeMismatch .. | .invalidBinaryOperation ..
  | .invalidUnaryOperation .. | .malformedExpression | .nonScalarElement _ | .arithmetic _
  | .shapeMismatch .. | .notSquare .. | .singularMatrix | .outputFailed _ => .runtimeError
  | _ => .syntaxError

def message : Cause → String
  | .unexpectedEnd => "unexpected end of file"
  | .unexpectedToken .. => "unexpected token"
  | .invalidStatement => "invalid statement"
  | .expectedCall name => s!"expected a call to `{name}`"
  | .missingSemicolon => "missing semicolon"
  | .expectedVariableName => "expected a variable name"
  | .missingAssign => "missing `=` in declaration"
  | .emptyExpression => "expected an expression"
  | .expectedOperator => "expected an operator"
  | .unclosedParenthesis _ => "unclosed parenthesis"
  | .commaInGroup => "unexpected comma inside parentheses"
  | .nestedVector => "nested vectors are not allowed"
  | .expectedRow => "expected a matrix row"
  | .unclosedBracket => "unclosed bracket"
  | .integerOverflow => "integer literal is too large"
  | .numberBeforeName => "invalid name"
  | .undefinedVariable name => s!"`{name}` is not defined"
  | .undefinedFunction name _ => s!"the `{name}` function does not exist"
  | .reservedName name => s!"cannot declare a variable named `{name}`"
  | .tooManyArguments name _ _ => s!"too many arguments were given to the `{name}` function"
  | .missingArgument name index _ _ => s!"missing argument #{index + 1} for the `{name}` function"
  | .typeMismatch name index _ _ =>
    s!"incorrect type for argument #{index + 1} for the `{name}` function"
  | .invalidBinaryOperation op _ _ => s!"cannot apply the `{op}` operator to these operands"
  | .invalidUnaryOperation op _ => s!"cannot apply the `{op}` operator to this operand"
  | .malformedExpression => "malformed expression"
  | .nonScalarElement _ => "matrix elements must be numbers"
  | .emptyMatrix => "empty matrix"
  | .raggedMatrix .. => "the rows of a matrix must all have the same length"
  | .arithmetic error => error.message
  | .shapeMismatch op _ _ => s!"mismatched matrix shapes for the `{op}` operator"
  | .notSquare name _ _ => s!"the `{name}` function requires a square matrix"
  | .singularMatrix => "singular matrix"
  | .outputFailed reason => s!"could not write output: {reason}"

/-- One label for each span of a fault with this cause. -/
def labels : Cause → List String
  | .unexpectedEnd => ["you might need to add another expression here"]
  | .unexpectedToken expected _ =>
    ["expected one of: " ++ ", ".intercalate (expected.map TokenKind.label)]
  | .invalidStatement => ["a statement cannot start here"]
  | .expectedCall _ => ["this name is not followed by `(`"]
  | .missingSemicolon => ["add a `;` here"]
  | .expectedVariableName => ["I expected to see a name here"]
  | .missingAssign => ["I expected to see `=` here"]
  | .emptyExpression => ["add an expression here"]
  | .expectedOperator => ["this operand follows another operand"]
  | .unclosedParenthesis _ => ["this parenthesis is not closed"]
  | .commaInGroup => ["(1) this group...", "(2) ...cannot contain a comma"]
  | .nestedVector => ["this bracket opens a vector inside a matrix row"]
  | .expectedRow => ["I expected to see `[` here"]
  | .unclosedBracket => ["this bracket is not closed", "I expected to see `]` here"]
  | .integerOverflow => ["this literal"]
  | .numberBeforeName => ["(1) this number...", "(2) ...runs into this name"]
  | .undefinedVariable _ => ["this variable"]
  | .undefinedFunction .. => ["this function"]
  | .reservedName _ => ["this name belongs to a builtin function"]
  | .tooManyArguments .. | .missingArgument .. => ["this function call"]
  | .typeMismatch _ _ _ given => ["this function call", s!"this argument has type `{given}`"]
  | .invalidBinaryOperation _ left right =>
    [s!"this operand has type `{left}`", "this operator", s!"this operand has type `{right}`"]
  | .invalidUnaryOperation _ operand =>
    ["this operator", s!"this operand has type `{operand}`"]
  | .malformedExpression => ["this expression"]
  | .nonScalarElement given => [s!"this element has type `{given}`"]
  | .emptyMatrix => ["this matrix"]
  | .raggedMatrix expected found =>
    [s!"this row has {expected} element(s)", s!"but this row has {found} element(s)"]
  | .arithmetic _ => ["while evaluating this"]
  | .shapeMismatch _ left right =>
    [s!"this matrix is {shapeText left}", "this operator", s!"this matrix is {shapeText right}"]
  | .notSquare _ rows cols => ["this function call", s!"this matrix is {shapeText (rows, cols)}"]
  | .singularMatrix => ["this function call", "this matrix has no inverse"]
  | .outputFailed _ => ["this function call"]

def suggestionText : List String → String
  | [] => "the available functions are print, transpose, " ++
      "and the reductions rref to_diag to_triangle inv det rank"
  | [name] => s!"did you mean the `{name}` function?"
  | names => "did you mean one of these functions? " ++
      ", ".intercalate (names.map fun name => s!"`{name}`")

def help : Cause → Option String
  | .unexpectedToken _ found => s!"found {found.label}"
  | .invalidStatement =>
    "statements are either declarations like `let x = 1;` or calls like `print(x);`"
  | .expectedCall _ => "only function calls and `let` declarations can be used as statements"
  | .missingSemicolon => "every statement must end with `;`"
  | .expectedVariableName =>
    "names start with a letter or underscore, as in `let A = [[1]];`"
  | .expectedOperator => "use `*` to multiply values"
  | .unclosedParenthesis true => "add a closing parenthesis `)` somewhere after this"
  | .unclosedParenthesis false => "add an opening parenthesis `(` somewhere before this"
  | .commaInGroup => "close the group before separating arguments or elements"
  | .nestedVector => "matrix elements must be scalars"
  | .expectedRow => "matrices are written as lists of rows, as in `[[1, 2], [3, 4]]`"
  | .unclosedBracket => "close the list with `]`"
  | .integerOverflow =>
    "integers must be between -9223372036854775808 and 9223372036854775807"
  | .numberBeforeName => "names cannot start with a digit; use `*` to multiply"
  | .undefinedVariable name => s!"to define it, type: let {name} = <expression>;"
  | .undefinedFunction _ suggestions => suggestionText suggestions
  | .reservedName _ => "choose a different name"
  | .tooManyArguments name expected given | .missingArgument name _ expected given =>
    s!"the `{name}` function takes {expected} argument(s); " ++
      s!"there are {given} argument(s) provided here"
  | .typeMismatch _ _ expected _ => s!"should be of type `{expected}`"
  | .nonScalarElement _ => "matrices cannot contain other matrices, symbols, or `()`"
  | .emptyMatrix => "a matrix must have at least one row and one column"
  | .shapeMismatch op _ _ =>
    if op = "*" then "the left matrix must have as many columns as the right matrix has rows"
    else "both matrices must have the same number of rows and columns"
  | .singularMatrix => "check the matrix with rank first; it must equal the number of rows"
  | _ => none

def note : Cause → Option String
  | .arithmetic .overflow => "numerators and denominators are limited to 64 bits"
  | _ => none

end Cause

namespace Fault

/-- Labels without a span are left out. -/
def report (f : Fault) : Report where
  category := f.cause.category
  message := f.cause.message
  labels := f.cause.labels.take f.spans.length
  help := f.cause.help
  note := f.cause.note

def headline (f : Fault) : String := f.cause.category.label ++ ": " ++ f.cause.message

end Fault

end MatrixScript
