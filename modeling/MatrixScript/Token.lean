import MatrixScript.Span

/-!
# Tokens

`tokenize` cuts a text into tokens without losing a character.  A token goes on as long as its kind
allows the next character, so every token is as long as it can be; blanks and line breaks are tokens
too.
-/

namespace MatrixScript

inductive TokenKind
  | newLine
  | whitespace
  | add
  | sub
  | mul
  | div
  | assign
  | letKeyword
  | name
  | comma
  | semicolon
  | openParen
  | closeParen
  | openSquare
  | closeSquare
  | int
  | symbol
deriving DecidableEq, Repr

structure Token where
  kind : TokenKind
  lexeme : String
  span : Span
deriving DecidableEq, Repr

namespace TokenKind

def label : TokenKind → String
  | .newLine => "NewLine"
  | .whitespace => "Whitespace"
  | .add => "Add"
  | .sub => "Sub"
  | .mul => "Mul"
  | .div => "Div"
  | .assign => "Assign"
  | .letKeyword => "Let"
  | .name => "Name"
  | .comma => "Comma"
  | .semicolon => "Semicolon"
  | .openParen => "OpenParen"
  | .closeParen => "CloseParen"
  | .openSquare => "OpenSquare"
  | .closeSquare => "CloseSquare"
  | .int => "Int"
  | .symbol => "Symbol"

def isBlank : TokenKind → Bool
  | .newLine | .whitespace => true
  | _ => false

def startsOperand : TokenKind → Bool
  | .name | .int | .openParen | .openSquare => true
  | _ => false

/-! ## Characters of a token -/

def isLineBreak (c : Char) : Bool := c == '\n' || c == '\r'
def isSpace (c : Char) : Bool := c == ' ' || c == '\t'

/-- Names are written in ASCII. -/
def isNameStart (c : Char) : Bool := c.isAlpha || c == '_'
def isNameRest (c : Char) : Bool := c.isAlphanum || c == '_'

/-- The kind of a token that starts with `c`, keywords counting as names.  A character that starts
nothing else is a symbol. -/
def ofFirst (c : Char) : TokenKind :=
  if isLineBreak c then .newLine
  else if isSpace c then .whitespace
  else if isNameStart c then .name
  else if c.isDigit then .int
  else match c with
    | '+' => .add
    | '-' => .sub
    | '*' => .mul
    | '/' => .div
    | '=' => .assign
    | ',' => .comma
    | ';' => .semicolon
    | '(' => .openParen
    | ')' => .closeParen
    | '[' => .openSquare
    | ']' => .closeSquare
    | _ => .symbol

/-- Whether a token of this kind goes on with `c`. -/
def goesOnWith : TokenKind → Char → Bool
  | .newLine, c => isLineBreak c
  | .whitespace, c => isSpace c
  | .name, c => isNameRest c
  | .int, c => c.isDigit
  | _, _ => false

end TokenKind

namespace Token

def isBlank (t : Token) : Bool := t.kind.isBlank

/-- The token made of `chars` at byte offset `start`; the keyword is a whole name. -/
def ofChars (kind : TokenKind) (start : Nat) (chars : List Char) : Token :=
  let lexeme := String.ofList chars
  { kind := if kind = .name ∧ lexeme = "let" then .letKeyword else kind
    lexeme
    span := ⟨start, start + lexeme.utf8ByteSize⟩ }

/-- Goes on with a token of which `read` has been read, last character first. -/
def scan (kind : TokenKind) (start : Nat) (read : List Char) : List Char → List Token
  | [] => [ofChars kind start read.reverse]
  | c :: rest =>
    if kind.goesOnWith c then
      scan kind start (c :: read) rest
    else
      let token := ofChars kind start read.reverse
      token :: scan (.ofFirst c) token.span.stop [c] rest

end Token

def tokenizeChars : List Char → List Token
  | [] => []
  | c :: rest => Token.scan (.ofFirst c) 0 [c] rest

def tokenize (text : String) : List Token := tokenizeChars text.toList

end MatrixScript
