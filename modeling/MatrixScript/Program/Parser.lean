import MatrixScript.Cursor
import MatrixScript.Program

/-!
# Parsing programs

Statements are read from the tokens of a text, from left to right and with one token of lookahead.
Expressions are split into items: parentheses have to match and operands may not be adjacent, but
whether each operator has its operands is not looked at.
Loops and nested expressions are bounded by the number of tokens ahead.
-/

namespace MatrixScript

/-- What ends an expression outside its own parentheses: `;` for a declaration, `,` or `)` for an
argument, and `,` or `]` for a matrix element. -/
inductive Ending
  | semicolon
  | argument
  | element
deriving DecidableEq, Repr

/-- What the next item of an expression has to be; `first` is an operand right after `(`. -/
inductive Slot
  | operand
  | first
  | operator
deriving DecidableEq, Repr

namespace Parse

/-! ## Literals -/

def decimalValue (digits : List Char) : Nat :=
  digits.foldl (fun n c => 10 * n + (c.toNat - '0'.toNat)) 0

/-- A minus sign belongs to the literal if the digits follow it directly. -/
def numeral : Parse (Located Int64) := attempt do
  let sign ← acceptJoined .sub .int
  let digits ← token .int
  match (← get).current? with
  | some t => if t.kind = .name then fail .numberBeforeName [digits.span, t.span]
  | none => pure ()
  let size : Int := decimalValue digits.lexeme.toList
  let (value, span) := match sign with
    | some minus => (-size, minus.span.through digits.span)
    | none => (size, digits.span)
  if InInt64 value then return ⟨.ofInt value, span⟩
  else fail .integerOverflow [span]

def name : Parse (Located String) := do
  let t ← token .name
  return ⟨t.lexeme, t.span⟩

/-! ## Calls and matrix literals, given a reader of nested expressions -/

def bracketed {α : Type} (item : Parse α) : Parse (Bracketed α) := do
  let opening ← token .openSquare
  match ← accept .closeSquare with
  | some closing => return ⟨[], opening.span.through closing.span⟩
  | none =>
    let items ← commaSeparated item (← bound)
    match ← accept .closeSquare with
    | some closing => return ⟨items, opening.span.through closing.span⟩
    | none => fail .unclosedBracket [opening.span, (← get).span]

section

variable (nested : Ending → Parse Expression)

def callOf (callee : Located String) : Parse Call := do
  let opening ← token .openParen
  match ← accept .closeParen with
  | some closing =>
    return ⟨callee, [], callee.span.through closing.span, opening.span.through closing.span⟩
  | none =>
    let args ← commaSeparated (nested .argument) (← bound)
    match ← accept .closeParen with
    | some closing =>
      return ⟨callee, args, callee.span.through closing.span, opening.span.through closing.span⟩
    | none => fail (.unclosedParenthesis true) [opening.span]

def rowOf : Parse Row := attempt do
  if (← peekKind?) = some .openSquare then bracketed (nested .element)
  else failHere .expectedRow

def matrixOf : Parse MatrixLiteral := attempt (bracketed (rowOf nested))

def operandOf : Parse Operand := do
  match ← peekKind? with
  | some .int | some .sub => .number <$> numeral
  | some .name =>
    let symbol ← name
    if (← peekKind?) = some .openParen then .call <$> callOf nested symbol
    else return .symbol symbol
  | _ => .matrix <$> matrixOf nested

end

/-! ## Expressions -/

/-- What to do at the next token of an expression. -/
inductive Move
  | stop
  | refuse (cause : Cause) (spans : List Span)
  | operand
  | opening
  | closing
  | unary (op : UnaryOp)
  | binary (op : BinaryOp)
deriving DecidableEq, Repr

namespace Move

/-- An expression does not end inside a parenthesis. -/
def finish : List Span → Move
  | [] => .stop
  | group :: _ => .refuse (.unclosedParenthesis true) [group]

/-- An operand follows another one.  In a declaration a semicolon must be missing between them. -/
def adjacent (ends : Ending) (c : Cursor) (t : Token) : Move :=
  match ends with
  | .semicolon =>
    .refuse .missingSemicolon [.point ((c.previous?.map (·.span.stop)).getD t.span.start)]
  | .argument | .element => .refuse .expectedOperator [t.span]

def unexpected (slot : Slot) (t : Token) : Move :=
  let expected := match slot with
    | .operand | .first => [.int, .name, .openParen, .openSquare, .add, .sub]
    | .operator => [.add, .sub, .mul, .div, .closeParen, .comma, .closeSquare, .semicolon]
  .refuse (.unexpectedToken expected t.kind) [t.span]

/-- The move at token `t`, the next one at `c`.  `groups` holds the parentheses that are still open,
innermost first.  Matrix elements cannot be matrices. -/
def atToken (ends : Ending) (groups : List Span) (slot : Slot) (c : Cursor) (t : Token) :
    Move :=
  match t.kind with
  | .closeParen =>
    match groups, ends with
    | _ :: _, _ => if slot = .first then .refuse .emptyExpression [t.span] else .closing
    | [], .semicolon => .refuse (.unclosedParenthesis false) [t.span]
    | [], _ => .stop
  | .comma =>
    match groups, ends with
    | group :: _, _ => .refuse .commaInGroup [group, t.span]
    | [], .semicolon => unexpected slot t
    | [], _ => .stop
  | .semicolon => finish groups
  | .closeSquare => if ends = .element then finish groups else unexpected slot t
  | .openParen => if slot = .operator then adjacent ends c t else .opening
  | .openSquare =>
    if slot = .operator then adjacent ends c t
    else if ends = .element then .refuse .nestedVector [t.span]
    else .operand
  | .int | .name => if slot = .operator then adjacent ends c t else .operand
  | .add => if slot = .operator then .binary .add else .unary .pos
  | .sub =>
    if slot = .operator then .binary .sub
    else if c.peekJoined .sub .int then .operand
    else .unary .neg
  | .mul => .binary .mul
  | .div => .binary .div
  | .newLine | .whitespace | .assign | .letKeyword | .symbol => unexpected slot t

def ofCursor (ends : Ending) (groups : List Span) (slot : Slot) (c : Cursor) : Move :=
  match c.peek? with
  | none => finish groups
  | some t => atToken ends groups slot c t

end Move

/-- Reads items up to the token that ends the expression and leaves that token. -/
def itemsOf (nested : Ending → Parse Expression) (ends : Ending) :
    Nat → List Span → Slot → Parse (List (Item Operand))
  | 0, _, _ => failHere .unexpectedEnd
  | fuel + 1, groups, slot => do
    match Move.ofCursor ends groups slot (← get) with
    | .stop => return []
    | .refuse cause spans => fail cause spans
    | .operand =>
      let x ← operandOf nested
      return .operand x :: (← itemsOf nested ends fuel groups .operator)
    | .opening =>
      let t ← next
      return .opening t.span :: (← itemsOf nested ends fuel (t.span :: groups) .first)
    | .closing =>
      let t ← next
      return .closing t.span :: (← itemsOf nested ends fuel groups.tail .operator)
    | .unary op =>
      let t ← next
      return .unary ⟨op, t.span⟩ :: (← itemsOf nested ends fuel groups .operand)
    | .binary op =>
      let t ← next
      return .binary ⟨op, t.span⟩ :: (← itemsOf nested ends fuel groups .operand)

/-- The expression made of the items, of which there has to be one at least. -/
def expressionOf (items : Parse (List (Item Operand))) : Parse Expression := do
  match ← items with
  | [] => failHere .emptyExpression
  | first :: rest => return ⟨first :: rest, first.span.through (rest.getLastD first).span⟩

/-- An expression whose calls and matrices nest less than `depth` deep. -/
def expressionAt : Nat → Ending → Parse Expression
  | 0, _ => failHere .unexpectedEnd
  | depth + 1, ends => do
    expressionOf (itemsOf (expressionAt depth) ends (← bound) [] .operand)

def expression (ends : Ending) : Parse Expression := do expressionAt (← bound) ends

def call (callee : Located String) : Parse Call := callOf expression callee
def row : Parse Row := rowOf expression
def matrix : Parse MatrixLiteral := matrixOf expression

/-! ## Statements -/

/-- A missing semicolon is reported right after the last token that was read. -/
def semicolon : Parse Span := do
  match ← accept .semicolon with
  | some t => return t.span
  | none =>
    let stop := match (← get).previous? with
      | some previous => previous.span.stop
      | none => 0
    fail .missingSemicolon [.point stop]

def declaration : Parse Declaration := attempt do
  let keyword ← token .letKeyword
  match ← accept .name with
  | none => failHere .expectedVariableName
  | some declared =>
    if (← accept .assign).isSome then
      let value ← expression .semicolon
      return ⟨⟨declared.lexeme, declared.span⟩, value, keyword.span.through (← semicolon)⟩
    else
      failHere .missingAssign

def statement : Parse Statement := attempt do
  match ← peekKind? with
  | some .letKeyword => .declaration <$> declaration
  | some .name =>
    let callee ← name
    if (← peekKind?) = some .openParen then
      let c ← call callee
      let _ ← semicolon
      return .call c
    else
      fail (.expectedCall callee.value) [callee.span]
  | _ => failHere .invalidStatement

/-- Reads all statements, skipping semicolons between them. -/
def statementsWithin : Nat → Parse (List Statement)
  | 0 => failHere .unexpectedEnd
  | fuel + 1 => do
    if (← accept .semicolon).isSome then statementsWithin fuel
    else if (← peekKind?).isNone then return []
    else
      let s ← statement
      return s :: (← statementsWithin fuel)

def statements : Parse (List Statement) := do statementsWithin (← bound)

end Parse

def parseScript (text : String) : Except Fault (List Statement) :=
  match Parse.statements (.ofText text) with
  | .ok script _ => .ok script
  | .error fault _ => .error fault

end MatrixScript
