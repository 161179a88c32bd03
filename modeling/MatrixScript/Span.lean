/-!
# Spans

A `Span` is a half-open range of byte offsets into a text.  `Located` puts a span beside a value.
-/

namespace MatrixScript

structure Span where
  start : Nat
  stop : Nat
deriving DecidableEq, Repr, Inhabited

namespace Span

def point (offset : Nat) : Span := ⟨offset, offset⟩

/-- From the start of the first span to the end of the second. -/
def through (first last : Span) : Span := ⟨first.start, last.stop⟩

/-- The smallest span that holds both. -/
def hull (s t : Span) : Span := ⟨min s.start t.start, max s.stop t.stop⟩

end Span

structure Located (α : Type) where
  value : α
  span : Span
deriving DecidableEq, Repr

end MatrixScript
