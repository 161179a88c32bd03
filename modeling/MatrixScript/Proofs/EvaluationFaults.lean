import MatrixScript.Evaluation
import MatrixScript.Proofs.Subexpressions

/-!
# Faults of evaluation

The spans of a fault are put together from those of the program.  A condition on spans is followed
from the expressions of a program to the faults of its evaluation.  What an expression does with the
spans of its operands is left open: `Keeps` asks that it keeps the condition.
-/

namespace MatrixScript

/-- A condition on spans that passes to the smallest span around two spans. -/
structure SpanCondition where
  Holds : Span → Prop
  hull : ∀ s t, Holds s → Holds t → Holds (s.hull t)

theorem SpanCondition.foldl_hull (V : SpanCondition) {s : Span} {spans : List Span}
    (hs : V.Holds s) (h : ∀ t ∈ spans, V.Holds t) : V.Holds (spans.foldl Span.hull s) := by
  induction spans generalizing s with
  | nil => exact hs
  | cons t spans ih =>
    obtain ⟨ht, hrest⟩ := List.forall_mem_cons.mp h
    exact ih (V.hull s t hs ht) hrest

namespace Eval

variable {V : SpanCondition} {α β : Type}

/-! ## Faults of steps -/

def FaultsAt (V : SpanCondition) (p : Eval α) : Prop :=
  ∀ s fault s', p s = .error fault s' → ∀ span ∈ fault.spans, V.Holds span

theorem faultsAt_pure (x : α) : FaultsAt V (pure x) := by
  intro s fault s' h
  cases h

theorem FaultsAt.bind {p : Eval α} {f : α → Eval β} (hp : FaultsAt V p)
    (hf : ∀ x, FaultsAt V (f x)) : FaultsAt V (p >>= f) := by
  intro s fault s' h
  change EStateM.bind p f s = .error fault s' at h
  unfold EStateM.bind at h
  split at h
  · exact hf _ _ _ _ h
  · cases h
    exact hp _ _ _ ‹_›

theorem faultsAt_fail {cause : Cause} {spans : List Span} (h : ∀ span ∈ spans, V.Holds span) :
    FaultsAt V (fail cause spans : Eval α) := by
  intro s fault s' he
  cases he
  exact h

theorem faultsAt_resolve {name : Located String} (h : V.Holds name.span) :
    FaultsAt V (resolve name) := by
  unfold resolve
  refine FaultsAt.bind (fun _ _ _ h => by cases h) fun session => ?_
  split
  · exact faultsAt_pure _
  · split
    · exact faultsAt_pure _
    · exact faultsAt_fail (List.forall_mem_singleton.mpr h)

theorem faultsAt_matrixOfRows {whole : Span} {rowSpans : List Span} (hw : V.Holds whole)
    (hr : ∀ s ∈ rowSpans, V.Holds s) (rows : Grid) :
    FaultsAt V (matrixOfRows whole rowSpans rows) := by
  unfold matrixOfRows
  split
  · exact faultsAt_pure _
  · refine faultsAt_fail fun s hs => ?_
    rcases List.mem_append.mp hs with hs | hs
    · exact hr s (List.mem_of_mem_take hs)
    · exact hr s (List.mem_of_mem_drop (List.mem_of_mem_take hs))
  · exact faultsAt_fail (List.forall_mem_singleton.mpr hw)

theorem faultsAt_elementOf {span : Span} (h : V.Holds span) (value : Value) :
    FaultsAt V (elementOf span value) := by
  unfold elementOf
  split
  · exact faultsAt_pure _
  · exact faultsAt_fail (List.forall_mem_singleton.mpr h)

theorem spans_locate {callee : Span} {args : List Span} (hc : V.Holds callee)
    (ha : ∀ a ∈ args, V.Holds a) (error : InvocationError) :
    ∀ span ∈ (error.locate callee args).spans, V.Holds span := by
  have hwhole := V.foldl_hull hc ha
  have harg (i : Nat) : V.Holds (args.getD i callee) := by
    rw [List.getD_eq_getElem?_getD]
    cases h : args[i]? with
    | none => exact hc
    | some a => exact ha a (List.mem_of_getElem? h)
  unfold InvocationError.locate
  split <;> simp only [List.mem_cons, List.not_mem_nil, or_false, forall_eq_or_imp, forall_eq,
    hwhole, harg, hc, and_self]

theorem faultsAt_located {callee : Span} {args : List Span} (hc : V.Holds callee)
    (ha : ∀ a ∈ args, V.Holds a) (p : EStateM InvocationError Session α) :
    FaultsAt V (located callee args p) := by
  intro s fault s' h
  unfold located EStateM.adaptExcept at h
  split at h
  · cases h
    exact spans_locate hc ha _
  · cases h

theorem faultsAt_sign {op : Located UnaryOp} {span : Span} (ho : V.Holds op.span)
    (hs : V.Holds span) (x : Value) : FaultsAt V (sign op x span) := by
  have hinvalid : ∀ s ∈ [op.span, span], V.Holds s :=
    List.forall_mem_cons.mpr ⟨ho, List.forall_mem_singleton.mpr hs⟩
  unfold sign
  split
  · exact faultsAt_fail hinvalid
  · exact faultsAt_pure _
  · exact faultsAt_located ho (List.forall_mem_singleton.mpr hs) _

/-! ## Faults of expressions -/

/-- Evaluating an expression keeps the condition if its spans satisfy it and its operands keep
it. -/
structure Keeps (V : SpanCondition) (e : Expression) : Prop where
  own : ∀ s ∈ e.ownSpans, V.Holds s
  run : (∀ x, .operand x ∈ e.items → FaultsAt V (operand x)) →
    FaultsAt V (runItems e.span (actions e.items))

theorem Keeps.own_item {e : Expression} (h : Keeps V e) {item : Item Operand}
    (hi : item ∈ e.items) : ∀ s ∈ item.ownSpans, V.Holds s := fun s hs =>
  h.own s (Infix.mem_ownSpans_of_item hi hs)

theorem Keeps.span {e : Expression} (h : ∀ e' ∈ withSubexpressions e, Keeps V e') :
    V.Holds e.span :=
  (h e (mem_withSubexpressions.mpr (.inl rfl))).own e.span List.mem_cons_self

mutual

theorem faultsAt_operand (x : Operand) (hown : ∀ s ∈ x.ownSpans, V.Holds s)
    (h : ∀ e ∈ x.expressions, Keeps V e) : FaultsAt V (operand x) := by
  match x with
  | .number n => exact faultsAt_pure _
  | .symbol s => exact faultsAt_resolve (List.forall_mem_singleton.mp hown)
  | .call ⟨name, args, span, parens⟩ =>
    refine FaultsAt.bind (faultsAt_arguments _ args h) fun values => ?_
    refine faultsAt_located (hown _ List.mem_cons_self) (List.forall_mem_map.mpr ?_) _
    exact fun arg harg => Keeps.span fun e he => h e (mem_allExpressions.mpr ⟨arg, harg, he⟩)
  | .matrix ⟨rows, span⟩ =>
    refine FaultsAt.bind (faultsAt_rows rows h) fun values => ?_
    obtain ⟨hspan, hrows⟩ := List.forall_mem_cons.mp hown
    exact faultsAt_matrixOfRows hspan hrows values

theorem faultsAt_expression (e : Infix Operand) (h : ∀ e' ∈ withSubexpressions e, Keeps V e') :
    FaultsAt V (expression e) := by
  match e with
  | ⟨items, span⟩ =>
    obtain ⟨he, hitems⟩ := List.forall_mem_cons.mp h
    exact he.run (faultsAt_items items (fun _ hi => he.own_item hi) hitems)

theorem faultsAt_items (items : List (Item Operand))
    (hown : ∀ item ∈ items, ∀ s ∈ item.ownSpans, V.Holds s)
    (h : ∀ e ∈ itemsExpressions items, Keeps V e) :
    ∀ x, .operand x ∈ items → FaultsAt V (operand x) := by
  match items with
  | [] => intro x hx; cases hx
  | item :: items =>
    obtain ⟨hi, hrest⟩ := List.forall_mem_append.mp h
    obtain ⟨hown₁, hown₂⟩ := List.forall_mem_cons.mp hown
    intro x hx
    rcases List.mem_cons.mp hx with hx | hx
    · exact faultsAt_item item hown₁ hi x hx
    · exact faultsAt_items items hown₂ hrest x hx

theorem faultsAt_item (item : Item Operand) (hown : ∀ s ∈ item.ownSpans, V.Holds s)
    (h : ∀ e ∈ itemExpressions item, Keeps V e) (x : Operand) (hx : .operand x = item) :
    FaultsAt V (operand x) := by
  match item with
  | .operand y => cases hx; exact faultsAt_operand _ hown h

theorem faultsAt_arguments (declares : Bool) (es : List (Infix Operand))
    (h : ∀ e ∈ allExpressions es, Keeps V e) : FaultsAt V (arguments declares es) := by
  match es with
  | [] => exact faultsAt_pure _
  | e :: es =>
    obtain ⟨he, hrest⟩ := List.forall_mem_append.mp h
    exact FaultsAt.bind (faultsAt_argument declares e he) fun value =>
      FaultsAt.bind (faultsAt_arguments false es hrest) fun _ => faultsAt_pure _

theorem faultsAt_argument (declares : Bool) (e : Infix Operand)
    (h : ∀ e' ∈ withSubexpressions e, Keeps V e') : FaultsAt V (argument declares e) := by
  match e with
  | ⟨items, span⟩ =>
    obtain ⟨he, hitems⟩ := List.forall_mem_cons.mp h
    have hrun := he.run (faultsAt_items items (fun _ hi => he.own_item hi) hitems)
    rw [argument]
    split
    · exact faultsAt_pure _
    · exact hrun

theorem faultsAt_rows (rows : List (Bracketed (Infix Operand)))
    (h : ∀ e ∈ rowsExpressions rows, Keeps V e) : FaultsAt V (matrixRows rows) := by
  match rows with
  | [] => exact faultsAt_pure _
  | ⟨elements, span⟩ :: rows =>
    obtain ⟨he, hrest⟩ := List.forall_mem_append.mp h
    exact FaultsAt.bind (faultsAt_elements elements he) fun _ =>
      FaultsAt.bind (faultsAt_rows rows hrest) fun _ => faultsAt_pure _

theorem faultsAt_elements (es : List (Infix Operand))
    (h : ∀ e ∈ allExpressions es, Keeps V e) : FaultsAt V (matrixElements es) := by
  match es with
  | [] => exact faultsAt_pure _
  | e :: es =>
    obtain ⟨he, hrest⟩ := List.forall_mem_append.mp h
    exact FaultsAt.bind (faultsAt_expression e he) fun value =>
      FaultsAt.bind (faultsAt_elementOf (Keeps.span he) value) fun x =>
        FaultsAt.bind (faultsAt_elements es hrest) fun _ => faultsAt_pure _

end

/-! ## Faults of statements -/

theorem faultsAt_statement {s : Statement} (hown : ∀ span ∈ s.ownSpans, V.Holds span)
    (h : ∀ e ∈ s.expressions, Keeps V e) : FaultsAt V (statement s) := by
  cases s with
  | declaration d =>
    have hname : V.Holds d.name.span := hown _ List.mem_cons_self
    exact FaultsAt.bind (faultsAt_expression d.value h) fun value =>
      FaultsAt.bind (faultsAt_located hname (List.forall_mem_nil _) _) fun _ => faultsAt_pure _
  | call c => exact faultsAt_operand (.call c) hown h

theorem faultsAt_statementsFrom (last : Value) {script : List Statement}
    (h : ∀ s ∈ script, (∀ span ∈ s.ownSpans, V.Holds span) ∧ ∀ e ∈ s.expressions, Keeps V e) :
    FaultsAt V (statementsFrom last script) := by
  induction script generalizing last with
  | nil => exact faultsAt_pure _
  | cons s script ih =>
    obtain ⟨⟨hown, hs⟩, hrest⟩ := List.forall_mem_cons.mp h
    exact FaultsAt.bind (faultsAt_statement hown hs) fun value => ih value hrest

end Eval

end MatrixScript
