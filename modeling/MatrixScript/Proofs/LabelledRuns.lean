import MatrixScript.Console
import MatrixScript.Proofs.FaultSpans
import MatrixScript.Proofs.GuardedEvaluation
import MatrixScript.Proofs.LabelledFaults
import MatrixScript.Proofs.MatrixShapes

/-!
# Labels of faults of scripts

A builtin that refused the rows of a matrix would have two labels and one span.  No builtin does,
since what it computes has the rows of a matrix; rows that a script writes are refused where their
spans are known.  So the report of a fault shows every label, at the place of its first span.
-/

namespace MatrixScript

open Fault

/-! ## Invocations -/

/-- There is a span for each label wherever the invocation is.  For refused rows there is not. -/
def InvocationError.Locatable : InvocationError → Prop
  | .matrix _ error => ¬ error.Refuses
  | .undefinedFunction .. | .reservedName _ | .tooManyArguments .. | .missingArgument ..
  | .typeMismatch .. | .invalidBinaryOperation .. | .arithmetic _ | .output _ => True

namespace InvocationError

theorem labelled_locate {error : InvocationError} (h : error.Locatable) (callee : Span)
    (args : List Span) : (error.locate callee args).Labelled := by
  cases error with
  | matrix name error =>
    cases error with
    | ragged row expected found => exact absurd trivial h
    | _ => rfl
  | _ => rfl

theorem not_labelled_ragged (callee : Span) (args : List Span) (name : String)
    (row expected found : Nat) :
    ¬ ((InvocationError.matrix name (.ragged row expected found)).locate callee args).Labelled := by
  intro h
  cases h

theorem locatable_ofMatrixError (name : String) {error : MatrixError} (h : ¬ error.Refuses) :
    (ofMatrixError name error).Locatable := by
  cases error with
  | arithmetic error => trivial
  | _ => exact h

end InvocationError

open InvocationError

section
variable {σ α : Type}

theorem raises_ofMatrixError (name : String) {result : Except MatrixError α} (h : Accepted result) :
    Raises Locatable (ofExcept (result.mapError (ofMatrixError name)) :
      EStateM InvocationError σ α) := by
  apply raises_ofExcept
  intro e he
  obtain ⟨error, herror, rfl⟩ := mapError_eq_error_iff.mp he
  exact locatable_ofMatrixError name (h error herror)

theorem locatable_of_check {arity : Arity} {name : String} {given : Nat} {e : InvocationError}
    (h : arity.check name given = .error e) : e.Locatable := by
  unfold Arity.check at h
  split at h
  · split at h
    · cases h
      trivial
    · split at h
      · cases h
        trivial
      · cases h
  · cases h

end

theorem raises_printAll (values : List Value) : Raises Locatable (printAll values) := by
  induction values with
  | nil => exact raises_pure ()
  | cons v vs ih =>
    have hwrite : Raises Locatable (Sink.write (v.text ++ "\n")) := by
      intro s e s' h
      unfold Sink.write at h
      split at h
      · cases h
      · dsimp only at h
        split at h
        · cases h
        · cases h
          trivial
    exact hwrite.bind fun _ => ih

namespace Builtin

theorem raises_apply_operator (op : BinaryOp) (x y : Value) :
    Raises Locatable (ofExcept (op.apply x y) : EStateM InvocationError Sink Value) := by
  unfold BinaryOp.apply
  split
  · next result h => exact raises_ofMatrixError op.symbol (BinaryOp.accepted_onValues h)
  · exact raises_throw trivial

theorem raises_apply (b : Builtin) (args : List Value) : Raises Locatable (b.apply args) := by
  unfold apply
  have hcheck : Raises Locatable (ofExcept (b.arity.check b.name args.length) :
      EStateM InvocationError Sink Unit) := raises_ofExcept fun _ => locatable_of_check
  apply hcheck.bind
  intro _
  split
  · exact raises_apply_operator _ _ _
  · exact (raises_printAll _).bind fun _ => raises_pure _
  · exact raises_pure _
  · next r m _ =>
    apply raises_ofExcept
    intro e he
    have he := map_eq_error_iff.mp he
    obtain ⟨error, herror, rfl⟩ := mapError_eq_error_iff.mp he
    exact locatable_ofMatrixError _ (r.accepted_apply m error herror)
  · exact raises_throw trivial

end Builtin

namespace Session

theorem raises_onSink {α : Type} {p : EStateM InvocationError Sink α} (h : Raises Locatable p) :
    Raises Locatable (onSink p) := by
  intro s e s' he
  unfold onSink at he
  split at he
  · cases he
  · cases he
    exact h _ _ _ ‹_›

theorem raises_declare (name : String) (value : Value) : Raises Locatable (declare name value) := by
  unfold declare
  split
  · exact raises_throw trivial
  · intro s e s' h
    cases h

theorem raises_invoke (name : String) (args : List Value) :
    Raises Locatable (invoke name args) := by
  unfold invoke
  split
  · unfold declareFirst
    apply (raises_ofExcept fun _ => locatable_of_check).bind
    intro _
    split
    · exact (raises_declare _ _).bind fun _ => raises_pure _
    · exact raises_throw trivial
  · split
    · exact raises_onSink (Builtin.raises_apply _ args)
    · exact raises_throw trivial

end Session

/-! ## Expressions -/

namespace Eval

theorem labelled_fail {α : Type} {cause : Cause} {spans : List Span}
    (h : (Fault.mk cause spans).Labelled) : Raises Labelled (fail cause spans : Eval α) :=
  raises_throw h

theorem labelled_located {α : Type} {p : EStateM InvocationError Session α}
    (h : Raises Locatable p) (callee : Span) (args : List Span) :
    Raises Labelled (located callee args p) := by
  intro s fault s' he
  unfold located EStateM.adaptExcept at he
  split at he
  · cases he
    exact labelled_locate (h _ _ _ ‹_›) callee args
  · cases he

theorem labelled_sign (op : Located UnaryOp) (x : Value) (span : Span) :
    Raises Labelled (sign op x span) := by
  unfold sign
  split
  · exact labelled_fail rfl
  · exact raises_pure x
  · next result _ h =>
    exact labelled_located (raises_ofMatrixError _ (Value.accepted_neg h)) _ _

theorem labelled_resolve (name : Located String) : Raises Labelled (resolve name) := by
  unfold resolve
  apply (raises_get : Raises Labelled (get : Eval Session)).bind
  intro session
  split
  · exact raises_pure _
  · split
    · exact raises_pure _
    · exact labelled_fail rfl

/-- With a span for each row, the two rows of different lengths have one. -/
theorem labelled_matrixOfRows (whole : Span) {rowSpans : List Span} {rows : Grid}
    (h : rowSpans.length = rows.length) : Raises Labelled (matrixOfRows whole rowSpans rows) := by
  unfold matrixOfRows
  split
  · exact raises_pure _
  · next row expected found hrows =>
    have hrow : row < rowSpans.length := h ▸ Guarded.row_lt_of_ragged hrows
    apply labelled_fail
    have hfirst : (rowSpans.take 1).length = 1 := by
      rw [List.length_take]
      omega
    have hsecond : ((rowSpans.drop row).take 1).length = 1 := by
      rw [List.length_take, List.length_drop]
      omega
    rw [Labelled, List.length_append, hfirst, hsecond]
    rfl
  · exact labelled_fail rfl

theorem labelled_elementOf (span : Span) (value : Value) :
    Raises Labelled (elementOf span value) := by
  unfold elementOf
  split
  · exact raises_pure _
  · exact labelled_fail rfl

theorem labelled_runPostfix (whole : Span) {items : List (Postfix Action)}
    (h : ∀ action, .operand action ∈ items → Raises Labelled action.value)
    (stack : List (Located Value)) : Raises Labelled (runPostfix whole items stack) := by
  induction items generalizing stack with
  | nil =>
    match stack with
    | [v] => exact raises_pure _
    | [] | _ :: _ :: _ => exact labelled_fail rfl
  | cons p rest ih =>
    have hrest := ih fun action hmem => h action (List.mem_cons_of_mem _ hmem)
    match p, stack with
    | .operand action, stack =>
      exact (h action List.mem_cons_self).bind fun value => hrest _
    | .operator (.binary op), y :: x :: stack =>
      exact (labelled_located (Session.raises_invoke _ _) _ _).bind fun value => hrest _
    | .operator (.unary op), x :: stack =>
      exact (labelled_sign op x.value x.span).bind fun value => hrest _
    | .operator (.binary _), [] | .operator (.binary _), [_] | .operator (.unary _), [] =>
      exact labelled_fail rfl

theorem labelled_runItems (whole : Span) {items : List (Item Action)}
    (h : ∀ action, .operand action ∈ items → Raises Labelled action.value) :
    Raises Labelled (runItems whole items) := by
  rw [Tree.runItems_eq]
  cases hp : toPostfix items with
  | error parenthesis => exact labelled_fail rfl
  | ok ordered =>
    apply labelled_runPostfix
    intro action hmem
    obtain ⟨item, hitem, hpostfix⟩ := List.mem_filterMap.mp ((perm_toPostfix hp).mem_iff.mp hmem)
    cases item with
    | operand x =>
      cases hpostfix
      exact h _ hitem
    | binary op => cases hpostfix
    | unary op => cases hpostfix
    | opening span => cases hpostfix
    | closing span => cases hpostfix

section
variable {es : List Expression}

theorem labelled_actions {whole : Span} {items : List (Item Operand)}
    (h : ∀ x, .operand x ∈ items → Raises Labelled (operand x)) :
    Raises Labelled (runItems whole (actions items)) := by
  apply labelled_runItems
  intro a ha
  rw [actions_eq_map] at ha
  obtain ⟨item, hitem, haction⟩ := List.mem_map.mp ha
  cases item <;> cases haction
  exact h _ hitem

theorem labelled_expression_of {e : Expression}
    (h : ∀ x, .operand x ∈ e.items → Raises Labelled (operand x)) :
    Raises Labelled (expression e) := by
  obtain ⟨items, span⟩ := e
  exact labelled_actions h

theorem labelled_argument_of (declares : Bool) {e : Expression}
    (h : ∀ x, .operand x ∈ e.items → Raises Labelled (operand x)) :
    Raises Labelled (argument declares e) := by
  obtain ⟨items, span⟩ := e
  rw [argument]
  split
  · exact raises_pure _
  · exact labelled_actions h

theorem labelled_arguments_of (declares : Bool)
    (h : ∀ e ∈ es, ∀ x, .operand x ∈ e.items → Raises Labelled (operand x)) :
    Raises Labelled (arguments declares es) := by
  induction es generalizing declares with
  | nil => exact raises_pure []
  | cons e es ih =>
    obtain ⟨he, hes⟩ := List.forall_mem_cons.mp h
    rw [arguments]
    exact (labelled_argument_of declares he).bind fun value =>
      (ih false hes).bind fun values => raises_pure _

theorem labelled_matrixElements_of
    (h : ∀ e ∈ es, ∀ x, .operand x ∈ e.items → Raises Labelled (operand x)) :
    Raises Labelled (matrixElements es) := by
  induction es with
  | nil => exact raises_pure []
  | cons e es ih =>
    obtain ⟨he, hes⟩ := List.forall_mem_cons.mp h
    rw [matrixElements]
    exact (labelled_expression_of he).bind fun value =>
      (labelled_elementOf e.span value).bind fun x => (ih hes).bind fun xs => raises_pure _

theorem labelled_matrixRows_of {rows : List Row}
    (h : ∀ row ∈ rows, ∀ e ∈ row.items, ∀ x, .operand x ∈ e.items → Raises Labelled (operand x)) :
    Raises Labelled (matrixRows rows) := by
  induction rows with
  | nil => exact raises_pure []
  | cons row rows ih =>
    obtain ⟨elements, span⟩ := row
    obtain ⟨hrow, hrest⟩ := List.forall_mem_cons.mp h
    rw [matrixRows]
    exact (labelled_matrixElements_of hrow).bind fun values =>
      (ih hrest).bind fun rest => raises_pure _

end

theorem labelled_operand (x : Operand) : Raises Labelled (operand x) := by
  refine Operand.induct (P := fun x => Raises Labelled (operand x)) (fun x ih => ?_) x
  match x with
  | .number n => exact raises_pure _
  | .symbol s => exact labelled_resolve s
  | .call ⟨name, args, span, parens⟩ =>
    have hargs : ∀ e ∈ args, ∀ y, .operand y ∈ e.items → Raises Labelled (operand y) := ih
    exact (labelled_arguments_of _ hargs).bind fun values =>
      labelled_located (Session.raises_invoke name.value values) _ _
  | .matrix ⟨rows, span⟩ =>
    have hrows : ∀ row ∈ rows, ∀ e ∈ row.items, ∀ y, .operand y ∈ e.items →
        Raises Labelled (operand y) :=
      fun row hrow e he => ih e (List.mem_flatMap.mpr ⟨row, hrow, he⟩)
    apply (labelled_matrixRows_of hrows).bind_of
    intro s values s' hvalues
    apply labelled_matrixOfRows
    rw [List.length_map, Guarded.length_of_matrixRows hvalues]

/-! ## Statements -/

theorem labelled_statement (st : Statement) : Raises Labelled (statement st) := by
  cases st with
  | declaration d =>
    have hvalue : Raises Labelled (expression d.value) :=
      labelled_expression_of fun x _ => labelled_operand x
    exact hvalue.bind fun value =>
      (labelled_located (Session.raises_declare _ _) _ _).bind fun _ => raises_pure _
  | call c => exact labelled_operand (.call c)

theorem labelled_statementsFrom (last : Value) (script : List Statement) :
    Raises Labelled (statementsFrom last script) := by
  induction script generalizing last with
  | nil => exact raises_pure last
  | cons st rest ih => exact (labelled_statement st).bind fun value => ih value

end Eval

variable {text : String} {session session' : Session} {fault : Fault}

theorem labelled_of_script (h : Eval.script text session = .error fault session') :
    fault.Labelled := by
  rcases script_eq_error h with hp | ⟨parsed, -, hrun⟩
  · exact labelled_of_parseScript hp
  · exact Eval.labelled_statementsFrom .unit parsed _ _ _ hrun

theorem onCharacters_of_script (h : Eval.script text session = .error fault session') :
    ∀ span ∈ fault.spans, (onCharacters text).Holds span := by
  rcases script_eq_error h with hp | ⟨parsed, hp, hrun⟩
  · intro span hspan
    have hwithin := within_of_parseScript hp span hspan
    exact ⟨hwithin.start, hwithin.stop⟩
  · have hread := statementRead_of_parseScript hp
    exact Eval.faultsAt_statementsFrom .unit (fun s hs => (hread s hs).keeps_onCharacters)
      _ _ _ hrun

/-- A script that fails has one span for each label of the cause, and one at least, whatever session
it runs on.  So the report shows all labels, at a place in the text, and the error of a builtin that
refuses rows is never what is reported. -/
theorem script_fault_labelled (h : Eval.script text session = .error fault session') :
    0 < fault.spans.length ∧ fault.spans.length = fault.cause.labels.length ∧
      fault.report.labels = fault.cause.labels ∧
      (∃ anchor, fault.spans.head? = some anchor ∧
        (IsBoundary text anchor.start ∧ IsBoundary text anchor.stop) ∧
        ∀ source, (Console.Message.ofFault source text fault).location =
          some ((Location.ofOffset text anchor.start).text source)) ∧
      ∀ callee args name row expected found,
        fault ≠ (InvocationError.matrix name (.ragged row expected found)).locate callee args := by
  have hlabelled := labelled_of_script h
  refine ⟨hlabelled.spans_pos, hlabelled, hlabelled.labels_report, ?_, ?_⟩
  · have hplaces := onCharacters_of_script h
    cases hspans : fault.spans with
    | nil => exact absurd hlabelled.spans_pos (by simp [hspans])
    | cons anchor spans =>
      refine ⟨anchor, rfl, hplaces anchor (by simp [hspans]), fun source => ?_⟩
      simp [Console.Message.ofFault, hspans]
  · intro callee args name row expected found hfault
    exact not_labelled_ragged callee args name row expected found (hfault ▸ hlabelled)

/-- Rows that a script writes with different lengths: one span for each of the two. -/
theorem script_fault_labelled_of_rows :
    let fault : Fault := ⟨.raggedMatrix 2 1, [⟨7, 13⟩, ⟨15, 18⟩]⟩
    Eval.script "print([[1, 2], [3]]);" {} = .error fault {} ∧
      fault.report.labels = fault.cause.labels := by
  intro fault
  have hfails : Eval.script "print([[1, 2], [3]]);" {} = .error fault {} := by decide +kernel
  exact ⟨hfails, (script_fault_labelled hfails).2.2.1⟩

end MatrixScript
