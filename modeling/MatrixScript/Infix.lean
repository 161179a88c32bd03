import MatrixScript.Span

/-!
# Infix expressions

An expression is kept as written: a list of operands, operators and parentheses.  The type of the
operands is a parameter, since the order of evaluation does not depend on what they are.
-/

namespace MatrixScript

/-- From the operation applied last to the one applied first. -/
inductive Precedence
  | any
  | term
  | factor
  | sign
deriving DecidableEq, Repr

namespace Precedence

def rank : Precedence → Nat
  | .any => 0
  | .term => 1
  | .factor => 2
  | .sign => 3

instance : LT Precedence := ⟨fun p q => p.rank < q.rank⟩
instance : LE Precedence := ⟨fun p q => p.rank ≤ q.rank⟩
instance (p q : Precedence) : Decidable (p < q) := inferInstanceAs (Decidable (p.rank < q.rank))
instance (p q : Precedence) : Decidable (p ≤ q) := inferInstanceAs (Decidable (p.rank ≤ q.rank))

end Precedence

inductive Associativity
  | left
  | right
deriving DecidableEq, Repr

inductive BinaryOp
  | mul
  | div
  | add
  | sub
deriving DecidableEq, Repr

inductive UnaryOp
  | pos
  | neg
deriving DecidableEq, Repr

namespace BinaryOp

def all : List BinaryOp := [.mul, .div, .add, .sub]

def symbol : BinaryOp → String
  | .mul => "*"
  | .div => "/"
  | .add => "+"
  | .sub => "-"

def precedence : BinaryOp → Precedence
  | .mul | .div => .factor
  | .add | .sub => .term

def associativity (_ : BinaryOp) : Associativity := .left

end BinaryOp

namespace UnaryOp

def all : List UnaryOp := [.pos, .neg]

def symbol : UnaryOp → String
  | .pos => "+"
  | .neg => "-"

def precedence (_ : UnaryOp) : Precedence := .sign

def associativity (_ : UnaryOp) : Associativity := .right

end UnaryOp

inductive Item (ω : Type)
  | operand (x : ω)
  | binary (op : Located BinaryOp)
  | unary (op : Located UnaryOp)
  | opening (span : Span)
  | closing (span : Span)
deriving Repr, DecidableEq

structure Infix (ω : Type) where
  items : List (Item ω)
  span : Span
deriving Repr, DecidableEq

def Infix.single? {ω : Type} (e : Infix ω) : Option ω :=
  match e.items with
  | [.operand x] => some x
  | _ => none

theorem Infix.single?_eq_some_iff {ω : Type} {e : Infix ω} {x : ω} :
    e.single? = some x ↔ e.items = [.operand x] := by
  unfold single?
  split
  · next y hitems => simp [hitems]
  · next hitems => simpa using hitems x

end MatrixScript
