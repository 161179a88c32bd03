import MatrixScript.Program

/-!
# Expressions at any depth

The expressions of a statement are its right-hand side or its arguments, and those in the calls and
matrices among their operands.  Every span of a statement belongs to the statement itself or to one
of its expressions.
-/

namespace MatrixScript

mutual

def Operand.expressions : Operand → List (Infix Operand)
  | .number _ | .symbol _ => []
  | .call c => callExpressions c
  | .matrix m => matrixExpressions m

def callExpressions : Application Operand → List (Infix Operand)
  | ⟨_, args, _, _⟩ => allExpressions args

def matrixExpressions : Bracketed (Bracketed (Infix Operand)) → List (Infix Operand)
  | ⟨rows, _⟩ => rowsExpressions rows

def rowsExpressions : List (Bracketed (Infix Operand)) → List (Infix Operand)
  | [] => []
  | row :: rows => rowExpressions row ++ rowsExpressions rows

def rowExpressions : Bracketed (Infix Operand) → List (Infix Operand)
  | ⟨elements, _⟩ => allExpressions elements

def allExpressions : List (Infix Operand) → List (Infix Operand)
  | [] => []
  | e :: es => withSubexpressions e ++ allExpressions es

def withSubexpressions : Infix Operand → List (Infix Operand)
  | ⟨items, span⟩ => ⟨items, span⟩ :: itemsExpressions items

def itemsExpressions : List (Item Operand) → List (Infix Operand)
  | [] => []
  | item :: items => itemExpressions item ++ itemsExpressions items

def itemExpressions : Item Operand → List (Infix Operand)
  | .operand x => x.expressions
  | .binary _ | .unary _ | .opening _ | .closing _ => []

end

def Statement.expressions : Statement → List Expression
  | .declaration d => withSubexpressions d.value
  | .call c => callExpressions c

/-! ## Membership -/

section
variable {e : Expression}

theorem mem_allExpressions {es : List Expression} :
    e ∈ allExpressions es ↔ ∃ arg ∈ es, e ∈ withSubexpressions arg := by
  induction es with
  | nil => simp [allExpressions]
  | cons arg es ih => simp [allExpressions, ih]

theorem mem_callExpressions {c : Call} :
    e ∈ callExpressions c ↔ ∃ arg ∈ c.args, e ∈ withSubexpressions arg := by
  rw [← mem_allExpressions]
  cases c
  exact Iff.rfl

theorem mem_rowExpressions {row : Row} :
    e ∈ rowExpressions row ↔ ∃ element ∈ row.items, e ∈ withSubexpressions element := by
  rw [← mem_allExpressions]
  cases row
  exact Iff.rfl

theorem mem_matrixExpressions {m : MatrixLiteral} :
    e ∈ matrixExpressions m ↔ ∃ row ∈ m.items, e ∈ rowExpressions row := by
  obtain ⟨rows, span⟩ := m
  rw [matrixExpressions]
  induction rows with
  | nil => simp [rowsExpressions]
  | cons row rows ih => simp [rowsExpressions, ih]

theorem mem_itemsExpressions {items : List (Item Operand)} :
    e ∈ itemsExpressions items ↔ ∃ x, .operand x ∈ items ∧ e ∈ x.expressions := by
  induction items with
  | nil => simp [itemsExpressions]
  | cons item items ih =>
    rw [itemsExpressions, List.mem_append, ih]
    cases item <;> simp [itemExpressions]

theorem mem_withSubexpressions {outer : Expression} :
    e ∈ withSubexpressions outer ↔
      e = outer ∨ ∃ x, .operand x ∈ outer.items ∧ e ∈ x.expressions := by
  obtain ⟨items, span⟩ := outer
  rw [withSubexpressions, List.mem_cons, mem_itemsExpressions]

end

/-! ## Spans -/

/-- The spans of an operand that are not those of an expression inside it. -/
def Operand.ownSpans : Operand → List Span
  | .number n => [n.span]
  | .symbol s => [s.span]
  | .call c => [c.name.span, c.span, c.parens]
  | .matrix m => m.span :: m.items.map (·.span)

def Item.ownSpans : Item Operand → List Span
  | .operand x => x.ownSpans
  | .binary op => [op.span]
  | .unary op => [op.span]
  | .opening span | .closing span => [span]

namespace Infix

def ownSpans (e : Infix Operand) : List Span := e.span :: e.items.flatMap Item.ownSpans

theorem mem_ownSpans_of_item {e : Infix Operand} {item : Item Operand} (hi : item ∈ e.items)
    {s : Span} (hs : s ∈ item.ownSpans) : s ∈ e.ownSpans :=
  List.mem_cons_of_mem _ (List.mem_flatMap.mpr ⟨item, hi, hs⟩)

end Infix

namespace Statement

def ownSpans : Statement → List Span
  | .declaration d => [d.name.span, d.span]
  | .call c => [c.name.span, c.span, c.parens]

end Statement

theorem Operand.span_mem_ownSpans (x : Operand) : x.span ∈ x.ownSpans := by
  cases x <;> simp [Operand.span, Operand.ownSpans]

theorem Item.span_mem_ownSpans (item : Item Operand) : item.span ∈ item.ownSpans := by
  cases item with
  | operand x => exact x.span_mem_ownSpans
  | binary op => exact List.mem_singleton_self _
  | unary op => exact List.mem_singleton_self _
  | opening span => exact List.mem_singleton_self _
  | closing span => exact List.mem_singleton_self _

end MatrixScript
