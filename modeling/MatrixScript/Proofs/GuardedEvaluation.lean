import MatrixScript.Proofs.GuardedMatrices
import MatrixScript.Proofs.Instructions

/-!
# Guarded evaluation

The evaluation of any statements, also of those that no text is read as, with the guarded operations
on matrices, and with a panic where the arguments of a builtin or the spans of rows should be there
but are not.  It is the evaluation itself.
-/

namespace MatrixScript

namespace Guarded

/-! ## Steps that do not panic -/

section
variable {ε ε' σ α β : Type}

def surely (p : EStateM ε σ α) : EStateM (Stop ε) σ α := EStateM.adaptExcept .error p

theorem surely_bind_congr {p : EStateM ε σ α} {f : α → EStateM (Stop ε) σ β} {g : α → EStateM ε σ β}
    (h : ∀ s x s', p s = .ok x s' → f x s' = surely (g x) s') :
    (surely p >>= f) = surely (p >>= g) := by
  funext s
  change EStateM.bind (EStateM.adaptExcept .error p) f s =
    EStateM.adaptExcept .error (EStateM.bind p g) s
  unfold EStateM.adaptExcept EStateM.bind
  dsimp only
  cases hp : p s with
  | ok x s' => exact h s x s' hp
  | error e s' => rfl

theorem surely_bind {p : EStateM ε σ α} {f : α → EStateM (Stop ε) σ β} {g : α → EStateM ε σ β}
    (h : ∀ x, f x = surely (g x)) : (surely p >>= f) = surely (p >>= g) :=
  surely_bind_congr fun _ x s' _ => congrFun (h x) s'

theorem surely_return (p : EStateM ε σ Unit) (x : α) :
    (do surely p; return x) = surely (do p; return x) := surely_bind fun _ => rfl

theorem ofExcept_sure (x : Except ε α) :
    (ofExcept (sure x) : EStateM (Stop ε) σ α) = surely (ofExcept x) := by
  cases x <;> rfl

theorem onSink_surely (p : EStateM ε Sink α) :
    Session.onSink (surely p) = surely (Session.onSink p) := by
  funext s
  unfold Session.onSink surely EStateM.adaptExcept
  dsimp only
  cases p s.sink <;> rfl

end

/-! ## Values -/

def onValues? (op : BinaryOp) (x y : Value) : Option (Except (Stop MatrixError) Value) :=
  match op, x, y with
  | .add, .matrix m, .matrix n => some (.matrix <$> zipEntries "+" Fraction.add m n)
  | .sub, .matrix m, .matrix n => some (.matrix <$> zipEntries "-" Fraction.sub m n)
  | .mul, .matrix m, .matrix n => some (.matrix <$> mul m n)
  | .mul, .matrix m, y => y.toFraction?.map fun factor => .matrix <$> mapEntries (·.mul factor) m
  | .mul, x, .matrix n => x.toFraction?.map fun factor => .matrix <$> mapEntries (·.mul factor) n
  | .div, .matrix m, y => y.toFraction?.map fun divisor => .matrix <$> mapEntries (·.div divisor) m
  | op, x, y =>
    match x.toFraction?, y.toFraction? with
    | some a, some b => some (sure (Value.scalar <$> (op.onFractions a b).mapError .arithmetic))
    | _, _ => none

def applyOperator (op : BinaryOp) (x y : Value) : Except (Stop InvocationError) Value :=
  match onValues? op x y with
  | some result => result.mapError (Stop.map (.ofMatrixError op.symbol))
  | none => .error (.error (.invalidBinaryOperation op.symbol x.typeName y.typeName))

def neg? : Value → Option (Except (Stop MatrixError) Value)
  | .integer n => some (sure (Value.scalar <$> (Fraction.ofInt64 n).neg.mapError .arithmetic))
  | .rational r => some (sure (Value.scalar <$> r.neg.mapError .arithmetic))
  | .matrix m => some (.matrix <$> mapEntries Fraction.neg m)
  | .symbol _ | .unit => none

theorem onValues?_eq (op : BinaryOp) (x y : Value) :
    onValues? op x y = (op.onValues? x y).map sure := by
  unfold onValues?
  split
  · rw [zipEntries_eq, map_sure]
    rfl
  · rw [zipEntries_eq, map_sure]
    rfl
  · rw [mul_eq, map_sure]
    rfl
  · next m y hy =>
    simp only [mapEntries_eq, map_sure]
    rw [BinaryOp.onValues?, Option.map_map]
    · rfl
    · exact hy
  · next x n hx =>
    simp only [mapEntries_eq, map_sure]
    rw [BinaryOp.onValues?, Option.map_map]
    · rfl
    · exact hx
  · simp only [mapEntries_eq, map_sure]
    rw [BinaryOp.onValues?, Option.map_map]
    rfl
  · rw [BinaryOp.onValues?]
    · cases x.toFraction? with
      | none => rfl
      | some a => cases y.toFraction? <;> rfl
    all_goals assumption

theorem neg?_eq (x : Value) : neg? x = x.neg?.map sure := by
  cases x with
  | matrix m =>
    rw [neg?, mapEntries_eq, map_sure]
    rfl
  | _ => rfl

theorem applyOperator_eq (op : BinaryOp) (x y : Value) :
    applyOperator op x y = sure (op.apply x y) := by
  rw [applyOperator, onValues?_eq, BinaryOp.apply]
  cases op.onValues? x y with
  | none => rfl
  | some result => exact mapError_sure _ _

/-! ## Builtins -/

def runBuiltin (b : Builtin) (args : List Value) : EStateM (Stop InvocationError) Sink Value := do
  ofExcept (sure (b.arity.check b.name args.length))
  match b, args with
  | .operator op, x :: y :: _ => ofExcept (applyOperator op x y)
  -- ruled out by the number of arguments
  | .operator _, _ => throw .panic
  | .print, args =>
    surely (printAll args)
    return .unit
  | .transpose, .matrix m :: _ => ofExcept (.matrix <$> transpose m)
  | .reduction r, .matrix m :: _ =>
    ofExcept (Reduction.Result.toValue <$>
      (reduce r m).mapError (Stop.map (.ofMatrixError r.name)))
  | b, args =>
    throw (.error (.typeMismatch b.name 0 "Matrix" ((args.head?.map Value.typeName).getD "Unit")))

def declareFirst (args : List Value) : EStateM (Stop InvocationError) Session Value := do
  ofExcept (sure ((Arity.exact 2).check "init" args.length))
  match args with
  | .symbol name :: value :: _ =>
    surely (Session.declare name value)
    return value
  | other :: _ => throw (.error (.typeMismatch "init" 0 "Symbol" other.typeName))
  -- ruled out by the number of arguments
  | [] => throw .panic

def invoke (name : String) (args : List Value) : EStateM (Stop InvocationError) Session Value :=
  if name = "init" then declareFirst args
  else
    match Builtin.ofName? name with
    | some b => Session.onSink (runBuiltin b args)
    | none => throw (.error (.undefinedFunction name (similarNames name)))

theorem runBuiltin_eq (b : Builtin) (args : List Value) :
    runBuiltin b args = surely (b.apply args) := by
  unfold runBuiltin Builtin.apply
  rw [ofExcept_sure]
  refine surely_bind_congr fun s _ s' h => ?_
  match b, args with
  | .operator op, x :: y :: _ =>
    dsimp only
    rw [applyOperator_eq, ofExcept_sure]
  | .operator op, [] => cases h
  | .operator op, [x] => cases h
  | .print, args =>
    dsimp only
    rw [surely_return]
  | .transpose, .matrix m :: _ =>
    dsimp only
    rw [transpose_eq]
    rfl
  | .reduction r, .matrix m :: _ =>
    dsimp only
    rw [reduce_eq, mapError_sure, map_sure, ofExcept_sure]
  | .transpose, [] | .transpose, .integer _ :: _ | .transpose, .rational _ :: _
  | .transpose, .symbol _ :: _ | .transpose, .unit :: _ => rfl
  | .reduction _, [] | .reduction _, .integer _ :: _ | .reduction _, .rational _ :: _
  | .reduction _, .symbol _ :: _ | .reduction _, .unit :: _ => rfl

theorem declareFirst_eq (args : List Value) :
    declareFirst args = surely (Session.declareFirst args) := by
  unfold declareFirst Session.declareFirst
  rw [ofExcept_sure]
  refine surely_bind_congr fun s _ s' h => ?_
  match args with
  | .symbol name :: value :: _ =>
    dsimp only
    rw [surely_return]
  | [] => cases h
  | [.symbol _] => rfl
  | .integer _ :: _ | .rational _ :: _ | .matrix _ :: _ | .unit :: _ => rfl

theorem invoke_eq (name : String) (args : List Value) :
    invoke name args = surely (Session.invoke name args) := by
  unfold invoke Session.invoke
  split
  · exact declareFirst_eq args
  · cases Builtin.ofName? name with
    | none => rfl
    | some b =>
      dsimp only
      rw [runBuiltin_eq, onSink_surely]

/-! ## Operators, rows and expressions -/

abbrev GuardedEval := EStateM (Stop Fault) Session

def located {α : Type} (callee : Span) (args : List Span)
    (p : EStateM (Stop InvocationError) Session α) : GuardedEval α :=
  EStateM.adaptExcept (Stop.map (InvocationError.locate callee args)) p

def fail {α : Type} (cause : Cause) (spans : List Span) : GuardedEval α :=
  throw (.error ⟨cause, spans⟩)

def sign (op : Located UnaryOp) (x : Value) (span : Span) : GuardedEval Value :=
  let invalid := fail (.invalidUnaryOperation op.value.symbol x.typeName) [op.span, span]
  match op.value, neg? x with
  | _, none => invalid
  | .pos, some _ => return x
  | .neg, some result =>
    located op.span [span] (ofExcept (result.mapError (Stop.map (.ofMatrixError op.value.symbol))))

abbrev Action := Located (GuardedEval Value)

def runPostfix (whole : Span) : List (Postfix Action) → List (Located Value) → GuardedEval Value
  | [], [v] => return v.value
  | [], _ => fail .malformedExpression [whole]
  | .operand action :: rest, stack => do
    let value ← action.value
    runPostfix whole rest (⟨value, action.span⟩ :: stack)
  | .operator (.binary op) :: rest, y :: x :: stack => do
    let value ← located op.span [x.span, y.span] (invoke op.value.symbol [x.value, y.value])
    runPostfix whole rest (⟨value, x.span.through y.span⟩ :: stack)
  | .operator (.unary op) :: rest, x :: stack => do
    let value ← sign op x.value x.span
    runPostfix whole rest (⟨value, op.span.through x.span⟩ :: stack)
  | .operator _ :: _, _ => fail .malformedExpression [whole]

def runItems (whole : Span) (items : List (Item Action)) : GuardedEval Value :=
  match Infix.single? ⟨items, whole⟩ with
  | some action => action.value
  | none =>
    match toPostfix items with
    | .ok ordered => runPostfix whole ordered []
    | .error parenthesis => fail .malformedExpression [parenthesis]

/-- The spans of the first row and of the one that differs from it have to be there. -/
def matrixOfRows (whole : Span) (rowSpans : List Span) (rows : Grid) : GuardedEval Value :=
  match RatMatrix.ofRows rows with
  | .ok m => return .matrix m
  | .error (.ragged row expected found) => do
    let first ← ofExcept (get rowSpans 0)
    let other ← ofExcept (get rowSpans row)
    fail (.raggedMatrix expected found) [first, other]
  | .error _ => fail .emptyMatrix [whole]

theorem located_surely {α : Type} (callee : Span) (args : List Span)
    (p : EStateM InvocationError Session α) :
    located callee args (surely p) = surely (Eval.located callee args p) := by
  funext s
  unfold located surely Eval.located EStateM.adaptExcept
  cases p s <;> rfl

theorem sign_eq (op : Located UnaryOp) (x : Value) (span : Span) :
    sign op x span = surely (Eval.sign op x span) := by
  unfold sign Eval.sign
  rw [neg?_eq]
  cases op.value with
  | pos => cases x.neg? <;> rfl
  | neg =>
    cases x.neg? with
    | none => rfl
    | some result =>
      dsimp only [Option.map_some]
      rw [mapError_sure, ofExcept_sure, located_surely]

def sureAction (action : Eval.Action) : Action := ⟨surely action.value, action.span⟩

theorem runPostfix_eq (whole : Span) (ordered : List (Postfix Eval.Action))
    (stack : List (Located Value)) :
    runPostfix whole (ordered.map (Postfix.map sureAction)) stack =
      surely (Eval.runPostfix whole ordered stack) := by
  induction ordered generalizing stack with
  | nil =>
    match stack with
    | [v] => rfl
    | [] | _ :: _ :: _ => rfl
  | cons p rest ih =>
    match p, stack with
    | .operand action, stack => exact surely_bind fun value => ih (⟨value, action.span⟩ :: stack)
    | .operator (.binary op), y :: x :: stack =>
      rw [List.map_cons, Postfix.map, runPostfix, invoke_eq, located_surely]
      exact surely_bind fun value => ih (⟨value, x.span.through y.span⟩ :: stack)
    | .operator (.unary op), x :: stack =>
      rw [List.map_cons, Postfix.map, runPostfix, sign_eq]
      exact surely_bind fun value => ih (⟨value, op.span.through x.span⟩ :: stack)
    | .operator (.binary _), [] | .operator (.binary _), [_] | .operator (.unary _), [] => rfl

theorem runItems_ordered (whole : Span) (items : List (Item Action)) :
    runItems whole items =
      match toPostfix items with
      | .ok ordered => runPostfix whole ordered []
      | .error parenthesis => fail .malformedExpression [parenthesis] := by
  unfold runItems
  split
  · next action haction =>
    obtain rfl := Infix.single?_eq_some_iff.mp haction
    change action.value = action.value >>= fun x => pure x
    rw [bind_pure]
  · rfl

theorem runItems_eq (whole : Span) (items : List (Item Eval.Action)) :
    runItems whole (items.map (Item.map sureAction)) = surely (Eval.runItems whole items) := by
  rw [runItems_ordered, Tree.runItems_eq, toPostfix_map]
  cases toPostfix items with
  | error parenthesis => rfl
  | ok ordered => exact runPostfix_eq whole ordered []

theorem row_lt_of_ragged {g : Grid} {row expected found : Nat}
    (h : RatMatrix.ofRows g = .error (.ragged row expected found)) : row < g.length := by
  unfold RatMatrix.ofRows at h
  split at h
  · split at h
    · cases h
    · next i hi =>
      cases h
      exact (List.findIdx?_eq_some_iff_findIdx_eq.mp hi).1
  · cases h

theorem matrixOfRows_eq (whole : Span) {rowSpans : List Span} {rows : Grid}
    (h : rowSpans.length = rows.length) :
    matrixOfRows whole rowSpans rows = surely (Eval.matrixOfRows whole rowSpans rows) := by
  unfold matrixOfRows Eval.matrixOfRows
  cases hrows : RatMatrix.ofRows rows with
  | ok m => rfl
  | error e =>
    cases e with
    | ragged row expected found =>
      have hrow : row < rowSpans.length := h ▸ row_lt_of_ragged hrows
      have hfirst : 0 < rowSpans.length := by omega
      dsimp only
      rw [get, get, List.take_one, List.take_one, List.head?_drop, List.head?_eq_getElem?,
        List.getElem?_eq_getElem hfirst, List.getElem?_eq_getElem hrow]
      rfl
    | _ => rfl

/-! ## Programs -/

mutual

def operand : Operand → GuardedEval Value
  | .number n => return .integer n.value
  | .symbol s => surely (Eval.resolve s)
  | .call c => call c
  | .matrix m => matrix m

def call : Application Operand → GuardedEval Value
  | ⟨name, args, _, _⟩ => do
    let values ← arguments (name.value == "init") args
    located name.span (args.map (·.span)) (invoke name.value values)

def arguments (declares : Bool) : List (Infix Operand) → GuardedEval (List Value)
  | [] => return []
  | arg :: args => do
    let value ← argument declares arg
    return value :: (← arguments false args)

def argument (declares : Bool) : Infix Operand → GuardedEval Value
  | ⟨items, span⟩ =>
    match Eval.declaredName? declares ⟨items, span⟩ with
    | some name => return .symbol name
    | none => runItems span (actions items)

def expression : Infix Operand → GuardedEval Value
  | ⟨items, span⟩ => runItems span (actions items)

def actions : List (Item Operand) → List (Item Action)
  | [] => []
  | item :: items => action item :: actions items

def action : Item Operand → Item Action
  | .operand x => .operand ⟨operand x, x.span⟩
  | .binary op => .binary op
  | .unary op => .unary op
  | .opening span => .opening span
  | .closing span => .closing span

def matrix : Bracketed (Bracketed (Infix Operand)) → GuardedEval Value
  | ⟨rows, span⟩ => do
    let values ← matrixRows rows
    matrixOfRows span (rows.map (·.span)) values

def matrixRows : List (Bracketed (Infix Operand)) → GuardedEval Grid
  | [] => return []
  | row :: rows => do
    let values ← matrixRow row
    return values :: (← matrixRows rows)

def matrixRow : Bracketed (Infix Operand) → GuardedEval (List Fraction)
  | ⟨elements, _⟩ => matrixElements elements

def matrixElements : List (Infix Operand) → GuardedEval (List Fraction)
  | [] => return []
  | e :: es => do
    let value ← expression e
    let x ← surely (Eval.elementOf e.span value)
    return x :: (← matrixElements es)

end

def declaration (d : Declaration) : GuardedEval Value := do
  let value ← expression d.value
  located d.name.span [] (surely (Session.declare d.name.value value))
  return value

def statement : Statement → GuardedEval Value
  | .declaration d => declaration d
  | .call c => call c

def statementsFrom (last : Value) : List Statement → GuardedEval Value
  | [] => return last
  | s :: rest => do
    let value ← statement s
    statementsFrom value rest

def statements (script : List Statement) : GuardedEval Value := statementsFrom .unit script

section
variable {es : List Expression}

def Sure (x : Operand) : Prop := operand x = surely (Eval.operand x)

theorem actions_eq {items : List (Item Operand)} (hx : ∀ x, .operand x ∈ items → Sure x) :
    actions items = (Eval.actions items).map (Item.map sureAction) := by
  induction items with
  | nil => rfl
  | cons item items ih =>
    rw [actions, Eval.actions, List.map_cons, ih fun x hmem => hx x (List.mem_cons_of_mem _ hmem)]
    cases item with
    | operand x =>
      have hvalue : operand x = surely (Eval.operand x) := hx x List.mem_cons_self
      rw [action, hvalue]
      rfl
    | _ => rfl

theorem expression_eq_of {e : Expression} (hx : ∀ x, .operand x ∈ e.items → Sure x) :
    expression e = surely (Eval.expression e) := by
  obtain ⟨items, span⟩ := e
  rw [expression, Eval.expression, actions_eq hx, runItems_eq]

theorem argument_eq_of (declares : Bool) {e : Expression}
    (hx : ∀ x, .operand x ∈ e.items → Sure x) :
    argument declares e = surely (Eval.argument declares e) := by
  obtain ⟨items, span⟩ := e
  rw [argument, Eval.argument, actions_eq hx, runItems_eq]
  cases Eval.declaredName? declares ⟨items, span⟩ <;> rfl

theorem arguments_eq_of (declares : Bool) (hes : ∀ e ∈ es, ∀ x, .operand x ∈ e.items → Sure x) :
    arguments declares es = surely (Eval.arguments declares es) := by
  induction es generalizing declares with
  | nil => rfl
  | cons e es ih =>
    obtain ⟨he, hes⟩ := List.forall_mem_cons.mp hes
    rw [arguments, Eval.arguments, argument_eq_of declares he, ih false hes]
    exact surely_bind fun value => surely_bind fun values => rfl

theorem matrixElements_eq_of (hes : ∀ e ∈ es, ∀ x, .operand x ∈ e.items → Sure x) :
    matrixElements es = surely (Eval.matrixElements es) := by
  induction es with
  | nil => rfl
  | cons e es ih =>
    obtain ⟨he, hes⟩ := List.forall_mem_cons.mp hes
    rw [matrixElements, Eval.matrixElements, expression_eq_of he, ih hes]
    exact surely_bind fun value => surely_bind fun x => surely_bind fun xs => rfl

theorem matrixRows_eq_of {rows : List Row}
    (hrows : ∀ row ∈ rows, ∀ e ∈ row.items, ∀ x, .operand x ∈ e.items → Sure x) :
    matrixRows rows = surely (Eval.matrixRows rows) := by
  induction rows with
  | nil => rfl
  | cons row rows ih =>
    obtain ⟨elements, span⟩ := row
    obtain ⟨hrow, hrest⟩ := List.forall_mem_cons.mp hrows
    rw [matrixRows, Eval.matrixRows, matrixRow, Eval.matrixRow, matrixElements_eq_of hrow, ih hrest]
    exact surely_bind fun values => surely_bind fun rest => rfl

theorem length_of_matrixRows {rows : List Row} {values : Grid} {s s' : Session}
    (h : Eval.matrixRows rows s = .ok values s') : values.length = rows.length := by
  induction rows generalizing values s with
  | nil =>
    cases h
    rfl
  | cons row rows ih =>
    rw [Eval.matrixRows] at h
    obtain ⟨first, s₁, -, h⟩ := Eval.of_bind_eq_ok h
    obtain ⟨rest, s₂, hrest, h⟩ := Eval.of_bind_eq_ok h
    cases h
    rw [List.length_cons, List.length_cons, ih hrest]

theorem operand_eq (x : Operand) : operand x = surely (Eval.operand x) := by
  refine Operand.induct (P := Sure) (fun x ih => ?_) x
  match x with
  | .number n => rfl
  | .symbol s => rfl
  | .call ⟨name, args, span, parens⟩ =>
    have hargs : ∀ e ∈ args, ∀ y, .operand y ∈ e.items → Sure y := ih
    rw [Sure, operand, Eval.operand, call, Eval.call, arguments_eq_of _ hargs]
    refine surely_bind fun values => ?_
    rw [invoke_eq, located_surely]
  | .matrix ⟨rows, span⟩ =>
    have hrows : ∀ row ∈ rows, ∀ e ∈ row.items, ∀ y, .operand y ∈ e.items → Sure y :=
      fun row hrow e he => ih e (List.mem_flatMap.mpr ⟨row, hrow, he⟩)
    rw [Sure, operand, Eval.operand, matrix, Eval.matrix, matrixRows_eq_of hrows]
    refine surely_bind_congr fun s values s' hvalues => ?_
    rw [matrixOfRows_eq]
    rw [List.length_map, length_of_matrixRows hvalues]

end

theorem expression_eq (e : Expression) : expression e = surely (Eval.expression e) :=
  expression_eq_of fun x _ => operand_eq x

theorem statement_eq (st : Statement) : statement st = surely (Eval.statement st) := by
  cases st with
  | declaration d =>
    rw [statement, Eval.statement, declaration, Eval.declaration, expression_eq]
    refine surely_bind fun value => ?_
    rw [located_surely]
    exact surely_return _ value
  | call c => exact operand_eq (.call c)

theorem statementsFrom_eq (last : Value) (script : List Statement) :
    statementsFrom last script = surely (Eval.statementsFrom last script) := by
  induction script generalizing last with
  | nil => rfl
  | cons st rest ih =>
    rw [statementsFrom, Eval.statementsFrom, statement_eq]
    exact surely_bind fun value => ih value

end Guarded

/-- Statements of any shape end with a value or a fault, whatever the session, and so do the
reductions that are called by their own names: no lookup of theirs panics. -/
theorem statements_do_not_panic (script : List Statement) (s : Session) :
    ((∃ v s', Guarded.statements script s = .ok v s' ∧ Eval.statements script s = .ok v s') ∨
      ∃ fault s', Guarded.statements script s = .error (.error fault) s' ∧
        Eval.statements script s = .error fault s') ∧
    ∀ m : RatMatrix,
      Guarded.reduceToMatrix .rref m = Guarded.sure m.rref ∧
      Guarded.reduceToMatrix .toDiagonal m = Guarded.sure m.toDiagonal ∧
      Guarded.reduceToMatrix .toTriangle m = Guarded.sure m.toTriangle ∧
      Guarded.reduceToMatrix .inverse m = Guarded.sure m.inverse ∧
      Guarded.determinant m = Guarded.sure m.determinant ∧
      Guarded.rank m = Guarded.sure m.rank := by
  constructor
  · have hrun : Guarded.statements script s = Guarded.surely (Eval.statements script) s :=
      congrFun (Guarded.statementsFrom_eq .unit script) s
    rw [hrun]
    unfold Guarded.surely EStateM.adaptExcept
    cases Eval.statements script s with
    | ok v s' => exact .inl ⟨v, s', rfl, rfl⟩
    | error fault s' => exact .inr ⟨fault, s', rfl, rfl⟩
  · intro m
    exact ⟨Guarded.reduceToMatrix_eq rfl, Guarded.reduceToMatrix_eq rfl,
      Guarded.reduceToMatrix_eq rfl, Guarded.reduceToMatrix_eq rfl, Guarded.determinant_eq m,
      Guarded.rank_eq m⟩

end MatrixScript
