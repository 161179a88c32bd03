import MatrixScript.Infix

/-!
# Postfix order

`toPostfix` reorders infix items so that every operator comes after its operands.  Operators wait on
a stack, one stack for each open parenthesis; a binary operator first releases the waiting ones that
bind at least as tightly.  It fails exactly on unbalanced parentheses.
-/

namespace MatrixScript

inductive Operator
  | binary (op : Located BinaryOp)
  | unary (op : Located UnaryOp)
deriving DecidableEq, Repr

inductive Postfix (ω : Type)
  | operand (x : ω)
  | operator (op : Operator)
deriving DecidableEq, Repr

namespace Operator

def precedence : Operator → Precedence
  | .binary op => op.value.precedence
  | .unary op => op.value.precedence

def associativity : Operator → Associativity
  | .binary op => op.value.associativity
  | .unary op => op.value.associativity

/-- Whether the operator, while it waits, goes before the next one. -/
def precedes (waiting next : Operator) : Bool :=
  match next.associativity with
  | .left => next.precedence ≤ waiting.precedence
  | .right => next.precedence < waiting.precedence

@[simp] theorem precedes_binary (waiting : Operator) (op : Located BinaryOp) :
    waiting.precedes (.binary op) = decide (op.value.precedence ≤ waiting.precedence) := rfl

/-- Nothing binds more tightly than a sign. -/
theorem precedes_unary (waiting : Operator) (op : Located UnaryOp) :
    waiting.precedes (.unary op) = false := by
  cases waiting with
  | binary op' =>
    obtain ⟨value, span⟩ := op'
    cases value <;> rfl
  | unary op' => rfl

end Operator

variable {ω : Type}

/-- Puts waiting operators in front of the postfix items that follow. -/
def release (waiting : List Operator) (rest : List (Postfix ω)) : List (Postfix ω) :=
  waiting.map .operator ++ rest

/-- Reorders items while `waiting` operators wait in the innermost group, and `groups` holds the
opening parentheses with the operators that wait outside them.  Fails with the span of a
parenthesis that has no partner. -/
def toPostfixFrom (waiting : List Operator) (groups : List (Span × List Operator)) :
    List (Item ω) → Except Span (List (Postfix ω))
  | [] =>
    match groups with
    | [] => .ok (release waiting [])
    | (opening, _) :: _ => .error opening
  | .operand x :: items => (.operand x :: ·) <$> toPostfixFrom waiting groups items
  | .unary op :: items => toPostfixFrom (.unary op :: waiting) groups items
  | .binary op :: items =>
    release (waiting.takeWhile (·.precedes (.binary op))) <$>
      toPostfixFrom (.binary op :: waiting.dropWhile (·.precedes (.binary op))) groups items
  | .opening span :: items => toPostfixFrom [] ((span, waiting) :: groups) items
  | .closing span :: items =>
    match groups with
    | [] => .error span
    | (_, outside) :: groups => release waiting <$> toPostfixFrom outside groups items

/-- A sign is stacked like a binary operator, but for it no operator is released. -/
theorem toPostfixFrom_unary (waiting : List Operator) (groups : List (Span × List Operator))
    (op : Located UnaryOp) (items : List (Item ω)) :
    toPostfixFrom waiting groups (.unary op :: items) =
      release (waiting.takeWhile (·.precedes (.unary op))) <$>
        toPostfixFrom (.unary op :: waiting.dropWhile (·.precedes (.unary op))) groups items := by
  have htake : waiting.takeWhile (·.precedes (.unary op)) = [] := by
    cases waiting <;> simp [Operator.precedes_unary]
  have hdrop : waiting.dropWhile (·.precedes (.unary op)) = waiting := by
    cases waiting <;> simp [Operator.precedes_unary]
  rw [htake, hdrop]
  exact (id_map _).symm

def toPostfix (items : List (Item ω)) : Except Span (List (Postfix ω)) := toPostfixFrom [] [] items

end MatrixScript
