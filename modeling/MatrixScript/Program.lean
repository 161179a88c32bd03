import MatrixScript.Infix

/-!
# Programs

The statements of a script as read: declarations and calls.  Expressions stay infix, and their
operands nest through calls and matrix literals.
-/

namespace MatrixScript

/-- A bracketed, comma-separated list. -/
structure Bracketed (α : Type) where
  items : List α
  span : Span
deriving Repr

/-- A name applied to arguments.  `parens` runs from the opening to the closing parenthesis. -/
structure Application (ω : Type) where
  name : Located String
  args : List (Infix ω)
  span : Span
  parens : Span
deriving Repr

inductive Operand
  | number (n : Located Int64)
  | symbol (s : Located String)
  | call (c : Application Operand)
  | matrix (m : Bracketed (Bracketed (Infix Operand)))

abbrev Expression := Infix Operand
abbrev Call := Application Operand
abbrev Row := Bracketed Expression
abbrev MatrixLiteral := Bracketed Row

/-- `let name = value;` -/
structure Declaration where
  name : Located String
  value : Expression
  span : Span

inductive Statement
  | declaration (d : Declaration)
  | call (c : Call)

/-! ## Spans -/

def Operand.span : Operand → Span
  | .number n => n.span
  | .symbol s => s.span
  | .call c => c.span
  | .matrix m => m.span

def Item.span : Item Operand → Span
  | .operand x => x.span
  | .binary op => op.span
  | .unary op => op.span
  | .opening span | .closing span => span

/-- The span of a declaration includes its semicolon, that of a call does not. -/
def Statement.span : Statement → Span
  | .declaration d => d.span
  | .call c => c.span

namespace Application

variable {ω : Type}

/-- From the name through the opening parenthesis. -/
def head (c : Application ω) : Span := ⟨c.name.span.start, c.parens.start + 1⟩

/-- The closing parenthesis. -/
def tail (c : Application ω) : Span := ⟨c.parens.stop - 1, c.parens.stop⟩

end Application

end MatrixScript
