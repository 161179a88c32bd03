import MatrixScript.Evaluation
import MatrixScript.Proofs.ExpressionTrees

/-!
# Programs of expression trees

The statements of a script with a tree in place of every expression, at any depth.  `evalTree` is
the plain recursive evaluation of these trees, and `Leaf.operand` writes them out as infix items.
-/

namespace MatrixScript

inductive Leaf
  | number (n : Located Int64)
  | symbol (s : Located String)
  | call (name : Located String) (args : List (Located (Tree Leaf))) (span parens : Span)
  | matrix (rows : List (Bracketed (Located (Tree Leaf)))) (span : Span)

inductive TreeStatement
  | declaration (name : Located String) (value : Located (Tree Leaf)) (span : Span)
  | call (name : Located String) (args : List (Located (Tree Leaf))) (span parens : Span)

/-! ## Spans -/

namespace Tree

variable {ω υ : Type}

def first (place : ω → Span) : Tree ω → Span
  | .operand x => place x
  | .sign op _ => op.span
  | .binary _ l _ => l.first place
  | .group _ _ t => t.first place

def last (place : ω → Span) : Tree ω → Span
  | .operand x => place x
  | .sign _ t => t.last place
  | .binary _ _ r => r.last place
  | .group _ _ t => t.last place

def extent (place : ω → Span) (t : Tree ω) : Span := (t.first place).through (t.last place)

theorem first_map (f : ω → υ) (place : υ → Span) (t : Tree ω) :
    (t.map f).first place = t.first (place ∘ f) := by
  induction t with
  | operand x => rfl
  | sign op t _ => rfl
  | binary op l r ih _ => exact ih
  | group _ _ t ih => exact ih

theorem last_map (f : ω → υ) (place : υ → Span) (t : Tree ω) :
    (t.map f).last place = t.last (place ∘ f) := by
  induction t with
  | operand x => rfl
  | sign op t ih => exact ih
  | binary op l r _ ih => exact ih
  | group _ _ t ih => exact ih

theorem extent_map (f : ω → υ) (place : υ → Span) (t : Tree ω) :
    (t.map f).extent place = t.extent (place ∘ f) := by
  rw [extent, extent, first_map, last_map]

end Tree

def Leaf.span : Leaf → Span
  | .number n => n.span
  | .symbol s => s.span
  | .call _ _ span _ => span
  | .matrix _ span => span

/-! ## Recursive evaluation -/

/-- The first argument of `init` is a name to declare, if it is nothing but a name. -/
def bareName? (declares : Bool) : Tree Leaf → Option String
  | .operand (.symbol s) => if declares then some s.value else none
  | _ => none

mutual

def evalLeaf : Leaf → Eval Value
  | .number n => return .integer n.value
  | .symbol s => Eval.resolve s
  | .call name args _ _ => do
    let values ← evalArguments (name.value == "init") args
    Eval.located name.span (args.map (·.span)) (Session.invoke name.value values)
  | .matrix rows span => do
    let values ← evalRows rows
    Eval.matrixOfRows span (rows.map (·.span)) values

def evalTree : Tree Leaf → Eval Value
  | .operand x => evalLeaf x
  | .sign op t => do
    let x ← evalTree t
    Eval.sign op x (t.extent Leaf.span)
  | .binary op l r => do
    let x ← evalTree l
    let y ← evalTree r
    Eval.located op.span [l.extent Leaf.span, r.extent Leaf.span]
      (Session.invoke op.value.symbol [x, y])
  | .group _ _ t => evalTree t

def evalArguments (declares : Bool) : List (Located (Tree Leaf)) → Eval (List Value)
  | [] => return []
  | arg :: args => do
    let value ← evalArgument declares arg
    return value :: (← evalArguments false args)

def evalArgument (declares : Bool) : Located (Tree Leaf) → Eval Value
  | ⟨t, _⟩ =>
    match bareName? declares t with
    | some name => return .symbol name
    | none => evalTree t

def evalRows : List (Bracketed (Located (Tree Leaf))) → Eval Grid
  | [] => return []
  | ⟨elements, _⟩ :: rows => do
    let values ← evalElements elements
    return values :: (← evalRows rows)

def evalElements : List (Located (Tree Leaf)) → Eval (List Fraction)
  | [] => return []
  | ⟨t, span⟩ :: es => do
    let value ← evalTree t
    let x ← Eval.elementOf span value
    return x :: (← evalElements es)

end

def evalStatement : TreeStatement → Eval Value
  | .declaration name value _ => do
    let v ← evalTree value.value
    Eval.located name.span [] (Session.declare name.value v)
    return v
  | .call name args span parens => evalLeaf (.call name args span parens)

def evalStatements (last : Value) : List TreeStatement → Eval Value
  | [] => return last
  | s :: rest => do
    let value ← evalStatement s
    evalStatements value rest

/-! ## The written form -/

mutual

def Leaf.operand : Leaf → Operand
  | .number n => .number n
  | .symbol s => .symbol s
  | .call name args span parens => .call ⟨name, writtenAll args, span, parens⟩
  | .matrix rows span => .matrix ⟨writtenRows rows, span⟩

def operandTree : Tree Leaf → Tree Operand
  | .operand x => .operand x.operand
  | .sign op t => .sign op (operandTree t)
  | .binary op l r => .binary op (operandTree l) (operandTree r)
  | .group opening closing t => .group opening closing (operandTree t)

def written : Located (Tree Leaf) → Infix Operand
  | ⟨t, span⟩ => ⟨(operandTree t).items, span⟩

def writtenAll : List (Located (Tree Leaf)) → List (Infix Operand)
  | [] => []
  | e :: es => written e :: writtenAll es

def writtenRows : List (Bracketed (Located (Tree Leaf))) → List (Bracketed (Infix Operand))
  | [] => []
  | ⟨elements, span⟩ :: rows => ⟨writtenAll elements, span⟩ :: writtenRows rows

end

def TreeStatement.statement : TreeStatement → Statement
  | .declaration name value span => .declaration ⟨name, written value, span⟩
  | .call name args span parens => .call ⟨name, writtenAll args, span, parens⟩

/-! ## Parentheses at every depth -/

mutual

def Leaf.Grouped : Leaf → Prop
  | .number _ | .symbol _ => True
  | .call _ args _ _ => AllGrouped args
  | .matrix rows _ => RowsGrouped rows

def LeavesGrouped : Tree Leaf → Prop
  | .operand x => x.Grouped
  | .sign _ t => LeavesGrouped t
  | .binary _ l r => LeavesGrouped l ∧ LeavesGrouped r
  | .group _ _ t => LeavesGrouped t

def AllGrouped : List (Located (Tree Leaf)) → Prop
  | [] => True
  | ⟨t, _⟩ :: es => (t.Grouped ∧ LeavesGrouped t) ∧ AllGrouped es

def RowsGrouped : List (Bracketed (Located (Tree Leaf))) → Prop
  | [] => True
  | ⟨elements, _⟩ :: rows => AllGrouped elements ∧ RowsGrouped rows

end

def TreeStatement.Grouped : TreeStatement → Prop
  | .declaration _ value _ => value.value.Grouped ∧ LeavesGrouped value.value
  | .call _ args _ _ => AllGrouped args

end MatrixScript
