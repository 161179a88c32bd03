import MatrixScript.Span

/-!
# Locations

Line and column of a byte offset, both counted from one.  Columns count characters.
-/

namespace MatrixScript

structure Location where
  line : Nat
  column : Nat
deriving DecidableEq, Repr

namespace Location

def isLineEnd (c : Char) : Bool :=
  c == '\n' || c == '\r' || c == '\x0b' || c == '\x0c' || c == '\u0085' || c == '\u2028' ||
    c == '\u2029'

/-- Whether a new line starts between `c` and `rest`: there has to be something on it, and a line
feed stays with the carriage return before it. -/
def breaksAfter (c : Char) (rest : List Char) : Bool :=
  isLineEnd c && !rest.isEmpty && !(c == '\r' && rest.head? == some '\n')

/-- The location `offset` bytes further on, where `here` is the location of the first of the
characters. -/
def after (here : Location) (offset : Nat) : List Char → Location
  | [] => here
  | c :: rest =>
    if offset = 0 then here
    else if breaksAfter c rest then after ⟨here.line + 1, 1⟩ (offset - c.utf8Size) rest
    else after ⟨here.line, here.column + 1⟩ (offset - c.utf8Size) rest

def ofOffset (text : String) (offset : Nat) : Location := after ⟨1, 1⟩ offset text.toList

def text (source : String) (l : Location) : String := s!"{source}:{l.line}:{l.column}"

end Location

end MatrixScript
