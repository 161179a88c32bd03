import MatrixScript.Fault

/-!
# Cursors

A `Cursor` is a position in a list of tokens, and a `Parse` a step that moves one.  A failing step
leaves the cursor where it failed, unless it is an `attempt`.
-/

namespace MatrixScript

/-- The tokens before the position, last first, and those after it. -/
structure Cursor where
  past : List Token
  ahead : List Token
deriving DecidableEq, Repr

namespace Cursor

def ofText (text : String) : Cursor := ⟨[], tokenize text⟩

def tokens (c : Cursor) : List Token := c.past.reverse ++ c.ahead

/-- The token directly before the cursor, which may be a blank. -/
def previous? (c : Cursor) : Option Token := c.past.head?

/-- The token directly after the cursor, which may be a blank. -/
def current? (c : Cursor) : Option Token := c.ahead.head?

/-- The next token that is not a blank. -/
def peek? (c : Cursor) : Option Token := c.ahead.find? (!·.isBlank)

def peekKind? (c : Cursor) : Option TokenKind := c.peek?.map (·.kind)

/-- Whether the next token has one kind and the token directly after it the other. -/
def peekJoined (c : Cursor) (kind next : TokenKind) : Bool :=
  match c.ahead.dropWhile (·.isBlank) with
  | t :: u :: _ => t.kind = kind && u.kind = next
  | _ => false

/-- The end of the last token. -/
def endSpan (c : Cursor) : Span :=
  match c.ahead.getLast?.or c.past.head? with
  | some t => .point t.span.stop
  | none => .point 0

/-- The span of the next token, or the end if there is none. -/
def span (c : Cursor) : Span :=
  match c.peek? with
  | some t => t.span
  | none => c.endSpan

/-- Moves past blanks and one token; without a token left, to the end. -/
def advanceFrom (past : List Token) : List Token → Option Token × Cursor
  | [] => (none, ⟨past, []⟩)
  | t :: ahead => if t.isBlank then advanceFrom (t :: past) ahead else (some t, ⟨t :: past, ahead⟩)

def advance (c : Cursor) : Option Token × Cursor := advanceFrom c.past c.ahead

end Cursor

/-! ## Steps -/

abbrev Parse := EStateM Fault Cursor

namespace Parse

variable {α : Type}

def fail (cause : Cause) (spans : List Span) : Parse α := throw ⟨cause, spans⟩

/-- Fails at the next token. -/
def failHere (cause : Cause) : Parse α := do fail cause [(← get).span]

/-- On failure the cursor stays where it was. -/
def attempt (p : Parse α) : Parse α := fun c =>
  match p c with
  | .ok x c' => .ok x c'
  | .error fault _ => .error fault c

def peekKind? : Parse (Option TokenKind) := return (← get).peekKind?

/-- More than the number of tokens ahead, which bounds every loop over them. -/
def bound : Parse Nat := return (← get).ahead.length + 1

def next : Parse Token := fun c =>
  match c.advance with
  | (some t, c') => .ok t c'
  | (none, c') => .error ⟨.unexpectedEnd, [c'.span]⟩ c'

def token (kind : TokenKind) : Parse Token := attempt do
  let t ← next
  if t.kind = kind then return t else fail (.unexpectedToken [kind] t.kind) [t.span]

def accept (kind : TokenKind) : Parse (Option Token) := do
  if (← peekKind?) = some kind then some <$> next else return none

def acceptJoined (kind following : TokenKind) : Parse (Option Token) := do
  if (← get).peekJoined kind following then some <$> next else return none

/-- The items `item` reads, up to the first that no comma follows. -/
def commaSeparated (item : Parse α) : Nat → Parse (List α)
  | 0 => failHere .unexpectedEnd
  | fuel + 1 => do
    let x ← item
    if (← accept .comma).isSome then return x :: (← commaSeparated item fuel) else return [x]

end Parse

end MatrixScript
