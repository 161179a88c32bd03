import MatrixScript.Proofs.TreePrograms

/-!
# Evaluation follows the trees

Evaluating in postfix order on a stack is the same as the recursive evaluation of the trees that the
expressions are written from.
-/

namespace MatrixScript

open Eval

/-! ## One expression -/

namespace Tree

/-- Left before right, and both before the operator. -/
def run : Tree Action → Eval Value
  | .operand action => action.value
  | .sign op t => do
    let x ← t.run
    Eval.sign op x (t.extent (·.span))
  | .binary op l r => do
    let x ← l.run
    let y ← r.run
    located op.span [l.extent (·.span), r.extent (·.span)]
      (Session.invoke op.value.symbol [x, y])
  | .group _ _ t => t.run

theorem runPostfix_postorder (whole : Span) (t : Tree Action) (rest : List (Postfix Action))
    (stack : List (Located Value)) :
    runPostfix whole (t.postorder ++ rest) stack =
      t.run >>= fun x => runPostfix whole rest (⟨x, t.extent (·.span)⟩ :: stack) := by
  induction t generalizing rest stack with
  | operand action => rfl
  | sign op t ih =>
    rw [postorder, List.append_assoc, ih, run, bind_assoc]
    rfl
  | binary op l r ihl ihr =>
    rw [postorder, List.append_assoc, List.append_assoc, ihl, run, bind_assoc]
    congr 1
    funext x
    rw [ihr, bind_assoc]
    rfl
  | group opening closing t ih => exact ih rest stack

theorem runItems_eq (whole : Span) (items : List (Item Action)) :
    runItems whole items =
      match toPostfix items with
      | .ok ordered => runPostfix whole ordered []
      | .error parenthesis => fail .malformedExpression [parenthesis] := by
  unfold runItems
  split
  · next action haction =>
    obtain rfl := Infix.single?_eq_some_iff.mp haction
    change action.value = action.value >>= fun x => pure x
    rw [bind_pure]
  · rfl

theorem runItems_items (whole : Span) {t : Tree Action} (h : t.Grouped) :
    runItems whole t.items = t.run := by
  rw [runItems_eq, toPostfix_items h]
  have hrun := runPostfix_postorder whole t [] []
  rw [List.append_nil] at hrun
  exact hrun.trans (bind_pure _)

theorem strength_map {ω υ : Type} (f : ω → υ) (t : Tree ω) : (t.map f).strength = t.strength := by
  cases t <;> rfl

theorem Grouped.map {ω υ : Type} {t : Tree ω} (h : t.Grouped) (f : ω → υ) : (t.map f).Grouped := by
  induction t with
  | operand x => trivial
  | sign op t ih => exact ⟨(strength_map f t).symm ▸ h.1, ih h.2⟩
  | binary op l r ihl ihr =>
    obtain ⟨hl, hr, hgl, hgr⟩ := h
    exact ⟨(strength_map f l).symm ▸ hl, (strength_map f r).symm ▸ hr, ihl hgl, ihr hgr⟩
  | group opening closing t ih => exact ih h

theorem items_ne_nil {ω : Type} (t : Tree ω) : t.items ≠ [] := by
  cases t <;> simp [items]

theorem eq_operand_of_items {ω : Type} {t : Tree ω} {x : ω} (h : t.items = [.operand x]) :
    t = .operand x := by
  cases t with
  | operand y => simpa [items] using h
  | sign op t => simp [items] at h
  | binary op l r =>
    rw [items, List.append_eq_singleton_iff] at h
    rcases h with ⟨h, -⟩ | ⟨-, h⟩
    · exact absurd h l.items_ne_nil
    · cases h
  | group opening closing t => simp [items] at h

end Tree

/-! ## Written programs -/

theorem Leaf.span_operand (x : Leaf) : x.operand.span = x.span := by
  cases x <;> rfl

theorem span_written (e : Located (Tree Leaf)) : (written e).span = e.span := by
  cases e; rfl

theorem writtenAll_eq_map (es : List (Located (Tree Leaf))) : writtenAll es = es.map written := by
  induction es with
  | nil => rfl
  | cons e es ih => rw [writtenAll, ih, List.map_cons]

theorem map_span_writtenAll (es : List (Located (Tree Leaf))) :
    (writtenAll es).map (·.span) = es.map (·.span) := by
  rw [writtenAll_eq_map, List.map_map]
  exact List.map_congr_left fun e _ => span_written e

theorem map_span_writtenRows (rows : List (Bracketed (Located (Tree Leaf)))) :
    (writtenRows rows).map (·.span) = rows.map (·.span) := by
  induction rows with
  | nil => rfl
  | cons row rows ih => rw [writtenRows, List.map_cons, ih, List.map_cons]

theorem actions_eq_map (items : List (Item Operand)) : actions items = items.map action := by
  induction items with
  | nil => rfl
  | cons item items ih => rw [actions, ih, List.map_cons]

theorem actions_append (xs ys : List (Item Operand)) :
    actions (xs ++ ys) = actions xs ++ actions ys := by
  rw [actions_eq_map, actions_eq_map, actions_eq_map, List.map_append]

def operandAction (x : Operand) : Action := ⟨operand x, x.span⟩

theorem actions_treeItems (t : Tree Operand) : actions t.items = (t.map operandAction).items := by
  induction t with
  | operand x => rfl
  | sign op t ih => rw [Tree.items, actions, ih]; rfl
  | binary op l r ihl ihr => rw [Tree.items, actions_append, ihl, actions, ihr]; rfl
  | group opening closing t ih => rw [Tree.items, actions, actions_append, ih]; rfl

def leafAction (x : Leaf) : Action := ⟨operand x.operand, x.span⟩

theorem map_operandAction (t : Tree Leaf) :
    (operandTree t).map operandAction = t.map leafAction := by
  induction t with
  | operand x => rw [operandTree, Tree.map, operandAction, Leaf.span_operand]; rfl
  | sign op t ih => rw [operandTree, Tree.map, ih]; rfl
  | binary op l r ihl ihr => rw [operandTree, Tree.map, ihl, ihr]; rfl
  | group opening closing t ih => rw [operandTree, Tree.map, ih]; rfl

theorem actions_items (t : Tree Leaf) : actions (operandTree t).items = (t.map leafAction).items := by
  rw [actions_treeItems, map_operandAction]

theorem runItems_written (whole : Span) {t : Tree Leaf} (h : t.Grouped) :
    runItems whole (actions (operandTree t).items) = (t.map leafAction).run := by
  rw [actions_items, Tree.runItems_items whole (h.map leafAction)]

theorem expression_written {e : Located (Tree Leaf)} (h : e.value.Grouped) :
    expression (written e) = (e.value.map leafAction).run := by
  rw [written, expression, runItems_written _ h]

theorem declaredName?_eq_none {declares : Bool} {arg : Expression}
    (h : ∀ s, arg.items ≠ [.operand (.symbol s)]) : declaredName? declares arg = none := by
  refine Option.eq_none_iff_forall_ne_some.mpr fun name hname => ?_
  obtain ⟨-, s, hs, -⟩ := exists_of_declaredName? hname
  exact h s hs

theorem declaredName?_items (declares : Bool) (t : Tree Leaf) (span : Span) :
    declaredName? declares ⟨(operandTree t).items, span⟩ = bareName? declares t := by
  cases t with
  | operand x => cases declares <;> cases x <;> rfl
  | sign op t => cases declares <;> rfl
  | binary op l r =>
    exact declaredName?_eq_none fun x hx => by cases Tree.eq_operand_of_items hx
  | group opening closing t => cases declares <;> rfl

theorem argument_written {declares : Bool} {t : Tree Leaf} {span : Span} (h : t.Grouped)
    (ht : (t.map leafAction).run = evalTree t) :
    argument declares (written ⟨t, span⟩) = evalArgument declares ⟨t, span⟩ := by
  rw [written, argument, evalArgument, declaredName?_items]
  cases bareName? declares t with
  | some name => rfl
  | none => exact (runItems_written span h).trans ht

/-! ## Operands at every depth -/

mutual

theorem operand_written (x : Leaf) (h : x.Grouped) : operand x.operand = evalLeaf x := by
  match x with
  | .number n => rfl
  | .symbol s => rfl
  | .call name args span parens =>
    rw [Leaf.operand, operand, call, evalLeaf, arguments_written _ args h,
      map_span_writtenAll]
  | .matrix rows span =>
    rw [Leaf.operand, operand, matrix, evalLeaf, rows_written rows h, map_span_writtenRows]

theorem run_leafAction (t : Tree Leaf) (h : LeavesGrouped t) :
    (t.map leafAction).run = evalTree t := by
  match t with
  | .operand x => exact operand_written x h
  | .sign op t =>
    rw [Tree.map, Tree.run, evalTree, run_leafAction t h, Tree.extent_map]; rfl
  | .binary op l r =>
    rw [Tree.map, Tree.run, evalTree, run_leafAction l h.1, run_leafAction r h.2, Tree.extent_map,
      Tree.extent_map]; rfl
  | .group opening closing t => exact run_leafAction t h

theorem arguments_written (declares : Bool) (es : List (Located (Tree Leaf))) (h : AllGrouped es) :
    arguments declares (writtenAll es) = evalArguments declares es := by
  match es with
  | [] => rfl
  | ⟨t, span⟩ :: es =>
    rw [writtenAll, arguments, evalArguments, arguments_written false es h.2,
      argument_written h.1.1 (run_leafAction t h.1.2)]

theorem elements_written (es : List (Located (Tree Leaf))) (h : AllGrouped es) :
    matrixElements (writtenAll es) = evalElements es := by
  match es with
  | [] => rfl
  | ⟨t, span⟩ :: es =>
    rw [writtenAll, matrixElements, evalElements, elements_written es h.2,
      expression_written (e := ⟨t, span⟩) h.1.1, run_leafAction t h.1.2, span_written]

theorem rows_written (rows : List (Bracketed (Located (Tree Leaf)))) (h : RowsGrouped rows) :
    matrixRows (writtenRows rows) = evalRows rows := by
  match rows with
  | [] => rfl
  | ⟨elements, span⟩ :: rows =>
    rw [writtenRows, matrixRows, evalRows, matrixRow, elements_written elements h.1,
      rows_written rows h.2]

end

/-! ## Statements -/

theorem statement_written (s : TreeStatement) (h : s.Grouped) :
    statement s.statement = evalStatement s := by
  cases s with
  | declaration name value span =>
    rw [TreeStatement.statement, statement, declaration, evalStatement, expression_written h.1,
      run_leafAction value.value h.2]
  | call name args span parens =>
    exact operand_written (.call name args span parens) h

theorem statementsFrom_written (last : Value) (script : List TreeStatement)
    (h : ∀ s ∈ script, s.Grouped) :
    statementsFrom last (script.map TreeStatement.statement) = evalStatements last script := by
  induction script generalizing last with
  | nil => rfl
  | cons s script ih =>
    rw [List.map_cons, statementsFrom, evalStatements, statement_written s (h s List.mem_cons_self)]
    congr 1
    funext value
    exact ih value fun s' hs' => h s' (List.mem_cons_of_mem _ hs')

/-- Both sides are functions of the session, so they agree in the value or the fault with its spans,
in the variables and in the output. -/
theorem statements_written (script : List TreeStatement) (h : ∀ s ∈ script, s.Grouped) :
    statements (script.map TreeStatement.statement) = evalStatements .unit script :=
  statementsFrom_written .unit script h

/-- The script `let x = -(1 + 2) * 3; print(4 - init(y, x), [[x, 1 / 2]]);`. -/
theorem statements_written_of_nested_calls :
    let number (n : Int64) (i j : Nat) : Tree Leaf := .operand (.number ⟨n, ⟨i, j⟩⟩)
    let name (s : String) (i j : Nat) : Tree Leaf := .operand (.symbol ⟨s, ⟨i, j⟩⟩)
    let sum : Tree Leaf := .binary ⟨.add, ⟨12, 13⟩⟩ (number 1 10 11) (number 2 14 15)
    let product : Tree Leaf := .binary ⟨.mul, ⟨17, 18⟩⟩
      (.sign ⟨.neg, ⟨8, 9⟩⟩ (.group ⟨9, 10⟩ ⟨15, 16⟩ sum)) (number 3 19 20)
    let init : Tree Leaf := .operand (.call ⟨"init", ⟨32, 36⟩⟩
      [⟨name "y" 37 38, ⟨37, 38⟩⟩, ⟨name "x" 40 41, ⟨40, 41⟩⟩] ⟨32, 42⟩ ⟨36, 42⟩)
    let row : Bracketed (Located (Tree Leaf)) :=
      ⟨[⟨name "x" 46 47, ⟨46, 47⟩⟩,
        ⟨.binary ⟨.div, ⟨51, 52⟩⟩ (number 1 49 50) (number 2 53 54), ⟨49, 54⟩⟩], ⟨45, 55⟩⟩
    let script : List TreeStatement :=
      [.declaration ⟨"x", ⟨4, 5⟩⟩ ⟨product, ⟨8, 20⟩⟩ ⟨0, 21⟩,
        .call ⟨"print", ⟨22, 27⟩⟩
          [⟨.binary ⟨.sub, ⟨30, 31⟩⟩ (number 4 28 29) init, ⟨28, 42⟩⟩,
            ⟨.operand (.matrix [row] ⟨44, 56⟩), ⟨44, 56⟩⟩] ⟨22, 57⟩ ⟨27, 57⟩]
    (∀ s ∈ script, s.Grouped) ∧
      statements (script.map TreeStatement.statement) = evalStatements .unit script := by
  intro number name sum product init row script
  have h : ∀ s ∈ script, s.Grouped := by
    simp [script, row, init, product, sum, number, name, TreeStatement.Grouped, AllGrouped,
      RowsGrouped, LeavesGrouped, Leaf.Grouped, Tree.Grouped, Tree.strength, BinaryOp.precedence]
    decide
  exact ⟨h, statements_written script h⟩

end MatrixScript
