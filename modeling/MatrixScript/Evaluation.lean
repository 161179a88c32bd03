import MatrixScript.Postfix
import MatrixScript.Program.Parser
import MatrixScript.Session

/-!
# Evaluation

Statements are evaluated one after the other and stop at the first fault.  The meaning of an
expression is put together from the actions of its operands, in postfix order and on a stack of
values with their spans.
-/

namespace MatrixScript

abbrev Eval := EStateM Fault Session

namespace Eval

def fail {α : Type} (cause : Cause) (spans : List Span) : Eval α := throw ⟨cause, spans⟩

/-- Runs an invocation at the given spans. -/
def located {α : Type} (callee : Span) (args : List Span)
    (p : EStateM InvocationError Session α) : Eval α :=
  EStateM.adaptExcept (InvocationError.locate callee args) p

/-! ## Operators and operands -/

/-- Both signs apply to scalars and matrices only. -/
def sign (op : Located UnaryOp) (x : Value) (span : Span) : Eval Value :=
  let invalid := fail (.invalidUnaryOperation op.value.symbol x.typeName) [op.span, span]
  match op.value, x.neg? with
  | _, none => invalid
  | .pos, some _ => return x
  | .neg, some result =>
    located op.span [span] (ofExcept (result.mapError (.ofMatrixError op.value.symbol)))

/-- A name stands for its variable, or else for the builtin of that name. -/
def resolve (s : Located String) : Eval Value := do
  match (← get).vars.get? s.value with
  | some value => return value
  | none =>
    if isReserved s.value then return .symbol s.value
    else fail (.undefinedVariable s.value) [s.span]

/-- An operand: where it is, and how to evaluate it. -/
abbrev Action := Located (Eval Value)

/-- Evaluates postfix items on a stack, last value first.  There has to be exactly one value in the
end. -/
def runPostfix (whole : Span) : List (Postfix Action) → List (Located Value) → Eval Value
  | [], [v] => return v.value
  | [], _ => fail .malformedExpression [whole]
  | .operand action :: rest, stack => do
    let value ← action.value
    runPostfix whole rest (⟨value, action.span⟩ :: stack)
  | .operator (.binary op) :: rest, y :: x :: stack => do
    let value ← located op.span [x.span, y.span]
      (Session.invoke op.value.symbol [x.value, y.value])
    runPostfix whole rest (⟨value, x.span.through y.span⟩ :: stack)
  | .operator (.unary op) :: rest, x :: stack => do
    let value ← sign op x.value x.span
    runPostfix whole rest (⟨value, op.span.through x.span⟩ :: stack)
  | .operator _ :: _, _ => fail .malformedExpression [whole]

/-- Evaluates an expression whose operands have become actions. -/
def runItems (whole : Span) (items : List (Item Action)) : Eval Value :=
  match Infix.single? ⟨items, whole⟩ with
  | some action => action.value
  | none =>
    match toPostfix items with
    | .ok ordered => runPostfix whole ordered []
    | .error parenthesis => fail .malformedExpression [parenthesis]

/-- The matrix with the given rows, written at `rowSpans`. -/
def matrixOfRows (whole : Span) (rowSpans : List Span) (rows : Grid) : Eval Value :=
  match RatMatrix.ofRows rows with
  | .ok m => return .matrix m
  | .error (.ragged row expected found) =>
    fail (.raggedMatrix expected found) (rowSpans.take 1 ++ (rowSpans.drop row).take 1)
  | .error _ => fail .emptyMatrix [whole]

def elementOf (span : Span) (value : Value) : Eval Fraction :=
  match value.toFraction? with
  | some x => return x
  | none => fail (.nonScalarElement value.typeName) [span]

/-! ## Programs -/

/-- The name that an argument declares: a bare name where one is declared. -/
def declaredName? (declares : Bool) (arg : Expression) : Option String :=
  match declares, arg.single? with
  | true, some (.symbol s) => some s.value
  | _, _ => none

theorem exists_of_declaredName? {declares : Bool} {arg : Expression} {name : String}
    (h : declaredName? declares arg = some name) :
    declares = true ∧ ∃ s, arg.items = [.operand (.symbol s)] ∧ s.value = name := by
  unfold declaredName? at h
  split at h
  · next s hs => exact ⟨rfl, s, Infix.single?_eq_some_iff.mp hs, Option.some.inj h⟩
  · cases h

mutual

def operand : Operand → Eval Value
  | .number n => return .integer n.value
  | .symbol s => resolve s
  | .call c => call c
  | .matrix m => matrix m

def call : Application Operand → Eval Value
  | ⟨name, args, _, _⟩ => do
    let values ← arguments (name.value == "init") args
    located name.span (args.map (·.span)) (Session.invoke name.value values)

/-- The values of arguments from left to right.  If the first one is the name of a variable to
declare, it is not looked up. -/
def arguments (declares : Bool) : List (Infix Operand) → Eval (List Value)
  | [] => return []
  | arg :: args => do
    let value ← argument declares arg
    return value :: (← arguments false args)

def argument (declares : Bool) : Infix Operand → Eval Value
  | ⟨items, span⟩ =>
    match declaredName? declares ⟨items, span⟩ with
    | some name => return .symbol name
    | none => runItems span (actions items)

def expression : Infix Operand → Eval Value
  | ⟨items, span⟩ => runItems span (actions items)

def actions : List (Item Operand) → List (Item Action)
  | [] => []
  | item :: items => action item :: actions items

def action : Item Operand → Item Action
  | .operand x => .operand ⟨operand x, x.span⟩
  | .binary op => .binary op
  | .unary op => .unary op
  | .opening span => .opening span
  | .closing span => .closing span

def matrix : Bracketed (Bracketed (Infix Operand)) → Eval Value
  | ⟨rows, span⟩ => do
    let values ← matrixRows rows
    matrixOfRows span (rows.map (·.span)) values

def matrixRows : List (Bracketed (Infix Operand)) → Eval Grid
  | [] => return []
  | row :: rows => do
    let values ← matrixRow row
    return values :: (← matrixRows rows)

def matrixRow : Bracketed (Infix Operand) → Eval (List Fraction)
  | ⟨elements, _⟩ => matrixElements elements

def matrixElements : List (Infix Operand) → Eval (List Fraction)
  | [] => return []
  | e :: es => do
    let value ← expression e
    let x ← elementOf e.span value
    return x :: (← matrixElements es)

end

def declaration (d : Declaration) : Eval Value := do
  let value ← expression d.value
  located d.name.span [] (Session.declare d.name.value value)
  return value

def statement : Statement → Eval Value
  | .declaration d => declaration d
  | .call c => call c

/-- The value of the last statement; `last` is the value if there is none. -/
def statementsFrom (last : Value) : List Statement → Eval Value
  | [] => return last
  | s :: rest => do
    let value ← statement s
    statementsFrom value rest

def statements (script : List Statement) : Eval Value := statementsFrom .unit script

/-- Runs a script on a session, after all of it has been read. -/
def script (text : String) : Eval Value := do
  statements (← ofExcept (parseScript text))

end Eval

end MatrixScript
