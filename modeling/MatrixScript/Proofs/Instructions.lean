import MatrixScript.Proofs.ReorderedItems
import Mathlib.Algebra.GroupWithZero.Nat
import Mathlib.Data.List.SplitLengths

/-!
# Programs as instructions

A script is put into a list of instructions for a stack machine.  An instruction runs at most one
function, so what happens between two instructions is a point of the evaluation.
-/

namespace MatrixScript

open Eval

/-- The last value first. -/
abbrev Stack := List (Located Value)

def Stack.latest (stack : Stack) (n : Nat) : List Value := (stack.take n).reverse.map (·.value)

inductive Instruction
  | push (v : Located Value)
  | load (name : Located String)
  | binary (op : Located BinaryOp)
  | unary (op : Located UnaryOp)
  /-- The last value is that of the expression at the span. -/
  | place (span : Span)
  /-- The last value has to be a scalar. -/
  | element
  /-- A matrix whose rows are at these spans and this wide. -/
  | matrix (span : Span) (rows : List (Span × Nat))
  | invoke (callee : Located String) (args : List Span) (span : Span)
  | declare (name : Located String)
  | fail (cause : Cause) (spans : List Span)
deriving DecidableEq, Repr

abbrev Code := List Instruction

namespace Instruction

/-- Fails if there are too few values, which does not happen in the code of a script. -/
def step : Instruction → Stack → Eval Stack
  | .push v, stack => return v :: stack
  | .load name, stack => do
    let value ← resolve name
    return ⟨value, name.span⟩ :: stack
  | .binary op, y :: x :: stack => do
    let value ← located op.span [x.span, y.span]
      (Session.invoke op.value.symbol [x.value, y.value])
    return ⟨value, x.span.through y.span⟩ :: stack
  | .unary op, x :: stack => do
    let value ← sign op x.value x.span
    return ⟨value, op.span.through x.span⟩ :: stack
  | .place span, x :: stack => return ⟨x.value, span⟩ :: stack
  | .element, x :: stack => do
    let scalar ← elementOf x.span x.value
    return ⟨.rational scalar, x.span⟩ :: stack
  | .matrix span rows, stack => do
    let widths := rows.map (·.2)
    let elements := (stack.latest widths.sum).filterMap Value.toFraction?
    let value ← matrixOfRows span (rows.map (·.1)) (widths.splitLengths elements)
    return ⟨value, span⟩ :: stack.drop widths.sum
  | .invoke callee args span, stack => do
    let value ← located callee.span args
      (Session.invoke callee.value (stack.latest args.length))
    return ⟨value, span⟩ :: stack.drop args.length
  | .declare name, x :: stack => do
    located name.span [] (Session.declare name.value x.value)
    return x :: stack
  | .fail cause spans, _ => Eval.fail cause spans
  | .binary _, [] | .binary _, [_] | .unary _, [] | .place _, [] | .element, [] | .declare _, [] =>
    Eval.fail .malformedExpression []

end Instruction

namespace Code

def run (code : Code) (stack : Stack) : Eval Stack :=
  code.foldlM (fun stack i => i.step stack) stack

theorem run_cons (i : Instruction) (code : Code) (stack : Stack) :
    run (i :: code) stack = i.step stack >>= run code := rfl

theorem run_append (before after : Code) (stack : Stack) :
    run (before ++ after) stack = run before stack >>= run after := List.foldlM_append

theorem run_singleton (i : Instruction) (stack : Stack) : run [i] stack = i.step stack :=
  bind_pure _

end Code

/-! ## The code of a program -/

/-- The code of postfix items on `height` values.  There has to be exactly one value in the end. -/
def postfixCode (whole : Span) : Nat → List (Postfix Code) → Code
  | 1, [] => [.place whole]
  | _, [] => [.fail .malformedExpression [whole]]
  | height, .operand code :: rest => code ++ postfixCode whole (height + 1) rest
  | height + 2, .operator (.binary op) :: rest => .binary op :: postfixCode whole (height + 1) rest
  | height + 1, .operator (.unary op) :: rest => .unary op :: postfixCode whole (height + 1) rest
  | _, .operator _ :: _ => [.fail .malformedExpression [whole]]

def infixCode (whole : Span) (items : List (Item Code)) : Code :=
  match toPostfix items with
  | .ok ordered => postfixCode whole 0 ordered
  | .error parenthesis => [.fail .malformedExpression [parenthesis]]

mutual

def operandCode : Operand → Code
  | .number n => [.push ⟨.integer n.value, n.span⟩]
  | .symbol s => [.load s]
  | .call c => callCode c
  | .matrix m => matrixCode m

def callCode : Application Operand → Code
  | ⟨name, args, span, _⟩ =>
    argumentsCode (name.value == "init") args ++ [.invoke name (args.map (·.span)) span]

def argumentsCode (declares : Bool) : List (Infix Operand) → Code
  | [] => []
  | arg :: args => argumentCode declares arg ++ argumentsCode false args

def argumentCode (declares : Bool) : Infix Operand → Code
  | ⟨items, span⟩ =>
    match declaredName? declares ⟨items, span⟩ with
    | some name => [.push ⟨.symbol name, span⟩]
    | none => infixCode span (itemCodes items)

def expressionCode : Infix Operand → Code
  | ⟨items, span⟩ => infixCode span (itemCodes items)

def itemCodes : List (Item Operand) → List (Item Code)
  | [] => []
  | item :: items => itemCode item :: itemCodes items

def itemCode : Item Operand → Item Code
  | .operand x => .operand (operandCode x)
  | .binary op => .binary op
  | .unary op => .unary op
  | .opening span => .opening span
  | .closing span => .closing span

def matrixCode : Bracketed (Bracketed (Infix Operand)) → Code
  | ⟨rows, span⟩ => rowsCode rows ++ [.matrix span (rows.map fun row => (row.span, row.items.length))]

def rowsCode : List (Bracketed (Infix Operand)) → Code
  | [] => []
  | row :: rows => rowCode row ++ rowsCode rows

def rowCode : Bracketed (Infix Operand) → Code
  | ⟨elements, _⟩ => elementsCode elements

def elementsCode : List (Infix Operand) → Code
  | [] => []
  | e :: es => expressionCode e ++ .element :: elementsCode es

end

def Statement.code : Statement → Code
  | .declaration d => expressionCode d.value ++ [.declare d.name]
  | .call c => callCode c

def scriptCode (script : List Statement) : Code := script.flatMap Statement.code

def topValue : Stack → Value
  | [] => .unit
  | v :: _ => v.value

/-! ## Items one by one -/

theorem itemCodes_eq_map (items : List (Item Operand)) :
    itemCodes items = items.map (Item.map operandCode) := by
  induction items with
  | nil => rfl
  | cons item items ih =>
    rw [itemCodes, ih, List.map_cons]
    cases item <;> rfl

theorem actions_eq_map_operandAction (items : List (Item Operand)) :
    actions items = items.map (Item.map operandAction) := by
  rw [actions_eq_map]
  refine List.map_congr_left fun item _ => ?_
  cases item <;> rfl

/-! ## Running the code -/

theorem Eval.of_bind_eq_ok {α β : Type} {p : Eval α} {f : α → Eval β} {s s' : Session} {y : β}
    (h : (p >>= f) s = .ok y s') : ∃ x s₁, p s = .ok x s₁ ∧ f x s₁ = .ok y s' := by
  change EStateM.bind p f s = .ok y s' at h
  unfold EStateM.bind at h
  split at h
  · exact ⟨_, _, ‹_›, h⟩
  · cases h

theorem Eval.bind_congr_of_ok {α β : Type} {p : Eval α} {f g : α → Eval β}
    (h : ∀ s x s', p s = .ok x s' → f x = g x) : p >>= f = p >>= g := by
  funext s
  change EStateM.bind p f s = EStateM.bind p g s
  unfold EStateM.bind
  cases hp : p s with
  | ok x s' => exact congrFun (h s x s' hp) s'
  | error fault s' => rfl

def Operand.Runs (x : Operand) : Prop :=
  ∀ stack, (operandCode x).run stack = (fun v => ⟨v, x.span⟩ :: stack) <$> operand x

theorem run_postfixCode (whole : Span) {ordered : List (Postfix Operand)}
    (hx : ∀ x, .operand x ∈ ordered → x.Runs) (values stack : Stack) :
    (postfixCode whole values.length (ordered.map (Postfix.map operandCode))).run (values ++ stack) =
      (fun v => ⟨v, whole⟩ :: stack) <$>
        runPostfix whole (ordered.map (Postfix.map operandAction)) values := by
  induction ordered generalizing values with
  | nil =>
    match values with
    | [v] => rfl
    | [] | _ :: _ :: _ => rfl
  | cons p rest ih =>
    have ih := ih fun x hmem => hx x (List.mem_cons_of_mem _ hmem)
    match p, values with
    | .operand x, values =>
      have hcode := hx x List.mem_cons_self (values ++ stack)
      simp only [List.map_cons, Postfix.map, postfixCode, runPostfix, Code.run_append, hcode,
        bind_map_left, map_bind]
      refine bind_congr fun v => ?_
      exact ih (⟨v, x.span⟩ :: values)
    | .operator (.binary op), y :: x :: values =>
      simp only [List.map_cons, Postfix.map, postfixCode, runPostfix, List.length_cons,
        List.cons_append, Code.run_cons, Instruction.step, bind_assoc, pure_bind, map_bind]
      refine bind_congr fun v => ?_
      exact ih (⟨v, x.span.through y.span⟩ :: values)
    | .operator (.unary op), x :: values =>
      simp only [List.map_cons, Postfix.map, postfixCode, runPostfix, List.length_cons,
        List.cons_append, Code.run_cons, Instruction.step, bind_assoc, pure_bind, map_bind]
      refine bind_congr fun v => ?_
      exact ih (⟨v, op.span.through x.span⟩ :: values)
    | .operator (.binary _), [] | .operator (.binary _), [_] | .operator (.unary _), [] => rfl

theorem run_infixCode (whole : Span) {items : List (Item Operand)}
    (hx : ∀ x, .operand x ∈ items → x.Runs) (stack : Stack) :
    (infixCode whole (itemCodes items)).run stack =
      (fun v => ⟨v, whole⟩ :: stack) <$> runItems whole (actions items) := by
  rw [Tree.runItems_eq, itemCodes_eq_map, actions_eq_map_operandAction, infixCode, toPostfix_map,
    toPostfix_map]
  cases hp : toPostfix items with
  | error parenthesis => rfl
  | ok ordered =>
    exact run_postfixCode whole (fun x hmem => hx x (mem_of_toPostfix hp hmem)) [] stack

theorem run_expressionCode {e : Expression} (hx : ∀ x, .operand x ∈ e.items → x.Runs)
    (stack : Stack) :
    (expressionCode e).run stack = (fun v => ⟨v, e.span⟩ :: stack) <$> expression e := by
  rw [expressionCode, expression]
  exact run_infixCode e.span hx stack

theorem run_argumentCode (declares : Bool) {e : Expression}
    (hx : ∀ x, .operand x ∈ e.items → x.Runs) (stack : Stack) :
    (argumentCode declares e).run stack =
      (fun v => ⟨v, e.span⟩ :: stack) <$> argument declares e := by
  rw [argumentCode, argument]
  cases declaredName? declares e with
  | some name => rfl
  | none => exact run_infixCode e.span hx stack

/-! ## Arguments and elements -/

def pile (spans : List Span) (values : List Value) (stack : Stack) : Stack :=
  (List.zipWith Located.mk values spans).reverse ++ stack

theorem pile_cons (span : Span) (spans : List Span) (value : Value) (values : List Value)
    (stack : Stack) :
    pile (span :: spans) (value :: values) stack = pile spans values (⟨value, span⟩ :: stack) := by
  simp [pile]

theorem run_argumentsCode (declares : Bool) {es : List Expression}
    (hx : ∀ e ∈ es, ∀ x, .operand x ∈ e.items → x.Runs) (stack : Stack) :
    (argumentsCode declares es).run stack =
      (fun values => pile (es.map (·.span)) values stack) <$> arguments declares es := by
  induction es generalizing declares stack with
  | nil => rfl
  | cons e es ih =>
    obtain ⟨he, hes⟩ := List.forall_mem_cons.mp hx
    simp only [argumentsCode, arguments, Code.run_append, run_argumentCode declares he,
      bind_map_left, map_bind, List.map_cons, map_pure, pile_cons, ih false hes]
    refine bind_congr fun v => ?_
    rw [map_eq_pure_bind]

theorem length_arguments {declares : Bool} {es : List Expression} {values : List Value}
    {s s' : Session} (h : arguments declares es s = .ok values s') : values.length = es.length := by
  induction es generalizing declares values s s' with
  | nil => cases h; rfl
  | cons e es ih =>
    rw [arguments] at h
    obtain ⟨v, s₁, -, h⟩ := of_bind_eq_ok h
    obtain ⟨values, s₂, hrest, h⟩ := of_bind_eq_ok h
    cases h
    exact congrArg (· + 1) (ih hrest)

theorem latest_pile {spans : List Span} {values : List Value} {n : Nat} (hv : values.length = n)
    (hs : spans.length = n) (stack : Stack) :
    (pile spans values stack).latest n = values ∧ (pile spans values stack).drop n = stack := by
  have hlength : (List.zipWith Located.mk values spans).reverse.length = n := by simp [hv, hs]
  rw [Stack.latest, pile, List.take_left' hlength, List.drop_left' hlength, List.reverse_reverse]
  refine ⟨?_, rfl⟩
  rw [List.map_zipWith, ← List.map_uncurry_zip_eq_zipWith]
  exact List.map_fst_zip (hv.trans hs.symm).le

theorem run_callCode {c : Call} (hx : ∀ e ∈ c.args, ∀ x, .operand x ∈ e.items → x.Runs)
    (stack : Stack) : (callCode c).run stack = (fun v => ⟨v, c.span⟩ :: stack) <$> call c := by
  obtain ⟨name, args, span, parens⟩ := c
  rw [callCode, call, Code.run_append, run_argumentsCode _ hx, bind_map_left, map_bind]
  refine bind_congr_of_ok fun s values s' h => ?_
  have hspans : (args.map (·.span)).length = args.length := List.length_map _
  obtain ⟨hlatest, hdrop⟩ := latest_pile ((length_arguments h).trans hspans.symm) rfl stack
  rw [Code.run_singleton, Instruction.step, hlatest, hdrop, map_eq_pure_bind]

/-! ## Matrices -/

theorem run_elementsCode {es : List Expression}
    (hx : ∀ e ∈ es, ∀ x, .operand x ∈ e.items → x.Runs) (stack : Stack) :
    (elementsCode es).run stack =
      (fun xs => pile (es.map (·.span)) (xs.map .rational) stack) <$> matrixElements es := by
  induction es generalizing stack with
  | nil => rfl
  | cons e es ih =>
    obtain ⟨he, hes⟩ := List.forall_mem_cons.mp hx
    simp only [elementsCode, matrixElements, Code.run_append, run_expressionCode he, Code.run_cons,
      Instruction.step, bind_map_left, map_bind, List.map_cons, map_pure, pile_cons, bind_assoc,
      pure_bind, ih hes]
    refine bind_congr fun v => bind_congr fun x => ?_
    rw [map_eq_pure_bind]

theorem length_matrixElements {es : List Expression} {xs : List Fraction} {s s' : Session}
    (h : matrixElements es s = .ok xs s') : xs.length = es.length := by
  induction es generalizing xs s s' with
  | nil => cases h; rfl
  | cons e es ih =>
    rw [matrixElements] at h
    obtain ⟨v, s₁, -, h⟩ := of_bind_eq_ok h
    obtain ⟨x, s₂, -, h⟩ := of_bind_eq_ok h
    obtain ⟨xs, s₃, hrest, h⟩ := of_bind_eq_ok h
    cases h
    exact congrArg (· + 1) (ih hrest)

theorem map_length_matrixRows {rows : List Row} {grid : Grid} {s s' : Session}
    (h : matrixRows rows s = .ok grid s') : grid.map List.length = rows.map (·.items.length) := by
  induction rows generalizing grid s s' with
  | nil => cases h; rfl
  | cons row rows ih =>
    rw [matrixRows] at h
    obtain ⟨xs, s₁, hrow, h⟩ := of_bind_eq_ok h
    obtain ⟨grid, s₂, hrest, h⟩ := of_bind_eq_ok h
    cases h
    rw [matrixRow] at hrow
    have hlength := length_matrixElements hrow
    rw [List.map_cons, List.map_cons, ih hrest, hlength]

theorem pile_append {spans₁ : List Span} {values₁ : List Value}
    (h : values₁.length = spans₁.length) (spans₂ : List Span) (values₂ : List Value)
    (stack : Stack) :
    pile (spans₁ ++ spans₂) (values₁ ++ values₂) stack =
      pile spans₂ values₂ (pile spans₁ values₁ stack) := by
  rw [pile, pile, pile, List.zipWith_append h, List.reverse_append, List.append_assoc]

def elementSpans (rows : List Row) : List Span := rows.flatMap fun row => row.items.map (·.span)

theorem run_rowsCode {rows : List Row}
    (hx : ∀ row ∈ rows, ∀ e ∈ row.items, ∀ x, .operand x ∈ e.items → x.Runs) (stack : Stack) :
    (rowsCode rows).run stack =
      (fun grid => pile (elementSpans rows) (grid.flatten.map .rational) stack) <$>
        matrixRows rows := by
  induction rows generalizing stack with
  | nil => rfl
  | cons row rows ih =>
    obtain ⟨hrow, hrows⟩ := List.forall_mem_cons.mp hx
    rw [rowsCode, matrixRows, Code.run_append, rowCode, matrixRow, run_elementsCode hrow,
      bind_map_left, map_bind]
    refine bind_congr_of_ok fun s xs s' h => ?_
    rw [ih hrows, map_bind]
    have hlength : (xs.map Value.rational).length = (row.items.map (·.span)).length := by
      rw [List.length_map, List.length_map, length_matrixElements h]
    rw [map_eq_pure_bind]
    refine bind_congr fun grid => ?_
    have happend := pile_append hlength (elementSpans rows) (grid.flatten.map .rational) stack
    rw [← List.map_append] at happend
    exact congrArg pure happend.symm

theorem splitLengths_flatten {α : Type} (grid : List (List α)) :
    (grid.map List.length).splitLengths grid.flatten = grid := by
  induction grid with
  | nil => rfl
  | cons row grid ih => simp [ih]

theorem run_matrixCode {m : MatrixLiteral}
    (hx : ∀ row ∈ m.items, ∀ e ∈ row.items, ∀ x, .operand x ∈ e.items → x.Runs) (stack : Stack) :
    (matrixCode m).run stack = (fun v => ⟨v, m.span⟩ :: stack) <$> matrix m := by
  obtain ⟨rows, span⟩ := m
  rw [matrixCode, matrix, Code.run_append, run_rowsCode hx, bind_map_left, map_bind]
  refine bind_congr_of_ok fun s grid s' h => ?_
  have hwidths := map_length_matrixRows h
  have hlength : (grid.flatten.map Value.rational).length = (rows.map (·.items.length)).sum := by
    rw [List.length_map, List.length_flatten, hwidths]
  have hspans : (elementSpans rows).length = (rows.map (·.items.length)).sum := by
    simp [elementSpans, List.length_flatMap]
  obtain ⟨hlatest, hdrop⟩ := latest_pile hlength hspans stack
  have hwidth : (rows.map fun row => (row.span, row.items.length)).map (·.2) =
      rows.map (·.items.length) := List.map_map ..
  have hspan : (rows.map fun row => (row.span, row.items.length)).map (·.1) =
      rows.map (·.span) := List.map_map ..
  have helements : (grid.flatten.map Value.rational).filterMap Value.toFraction? =
      grid.flatten := by
    rw [List.filterMap_map]
    exact List.filterMap_some
  rw [Code.run_singleton, Instruction.step, hwidth, hspan, hlatest, hdrop, helements, ← hwidths,
    splitLengths_flatten, map_eq_pure_bind]

/-! ## Whole programs -/

theorem runs (x : Operand) : x.Runs := by
  refine Operand.induct (fun x hx => ?_) x
  cases x with
  | number n => exact fun stack => rfl
  | symbol s =>
    intro stack
    rw [operandCode, operand, Code.run_singleton, map_eq_pure_bind]
    rfl
  | call c => exact fun stack => run_callCode hx stack
  | matrix m =>
    refine fun stack => run_matrixCode (fun row hrow e he => hx e ?_) stack
    exact List.mem_flatMap.mpr ⟨row, hrow, he⟩

theorem run_code (s : Statement) (stack : Stack) :
    ∃ span, s.code.run stack = (fun v => ⟨v, span⟩ :: stack) <$> statement s := by
  cases s with
  | declaration d =>
    refine ⟨d.value.span, ?_⟩
    rw [Statement.code, statement, declaration, Code.run_append,
      run_expressionCode fun x _ => runs x, bind_map_left, map_bind]
    refine bind_congr fun v => ?_
    rw [Code.run_singleton, Instruction.step, map_bind]
    rfl
  | call c => exact ⟨c.span, runs (.call c) stack⟩

theorem topValue_run_scriptCode (script : List Statement) (stack : Stack) :
    topValue <$> (scriptCode script).run stack = statementsFrom (topValue stack) script := by
  induction script generalizing stack with
  | nil => rfl
  | cons s script ih =>
    obtain ⟨span, hs⟩ := run_code s stack
    rw [scriptCode, List.flatMap_cons, Code.run_append, hs, bind_map_left, map_bind, statementsFrom]
    exact bind_congr fun v => ih (⟨v, span⟩ :: stack)

/-- Running the code is evaluating the script. -/
theorem run_scriptCode (script : List Statement) :
    topValue <$> (scriptCode script).run [] = statements script :=
  topValue_run_scriptCode script []

end MatrixScript
