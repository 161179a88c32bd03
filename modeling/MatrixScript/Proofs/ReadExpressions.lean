import MatrixScript.Proofs.MalformedExpressions

/-!
# Evaluating what was read

An expression read from a text evaluates without getting stuck if it is a sentence, and to no value
at all if it is not, whatever its operands do.
-/

namespace MatrixScript

theorem Tree.items_map {ω υ : Type} (f : ω → υ) (t : Tree ω) :
    (t.map f).items = t.items.map (Item.map f) := by
  induction t with
  | operand x => rfl
  | sign op t ih => simp [Tree.map, Tree.items, Item.map, ih]
  | binary op l r ihl ihr => simp [Tree.map, Tree.items, Item.map, ihl, ihr]
  | group opening closing t ih => simp [Tree.map, Tree.items, Item.map, ih]

namespace Eval

/-! ## Sentences -/

variable {α β : Type} {s s' : Session} {fault : Fault}

theorem of_bind_eq_error {p : Eval α} {f : α → Eval β} (h : (p >>= f) s = .error fault s') :
    p s = .error fault s' ∨ ∃ x s₁, p s = .ok x s₁ ∧ f x s₁ = .error fault s' := by
  change EStateM.bind p f s = .error fault s' at h
  unfold EStateM.bind at h
  split at h
  · exact .inr ⟨_, _, ‹_›, h⟩
  · cases h
    exact .inl ‹_›

def NeverMalformed (p : Eval α) : Prop :=
  ∀ s fault s', p s = .error fault s' → fault.cause ≠ .malformedExpression

theorem neverMalformed_located (callee : Span) (args : List Span)
    (p : EStateM InvocationError Session α) : NeverMalformed (located callee args p) := by
  intro s fault s' h
  unfold located EStateM.adaptExcept at h
  split at h
  · cases h
    unfold InvocationError.locate
    split <;> simp
  · cases h

theorem neverMalformed_sign (op : Located UnaryOp) (x : Value) (span : Span) :
    NeverMalformed (sign op x span) := by
  unfold sign
  split
  · intro s fault s' h; cases h; simp
  · intro s fault s' h; cases h
  · exact neverMalformed_located _ _ _

end Eval

open Eval

theorem Tree.operand_of_run_error {run : Operand → Eval Value} {t : Tree Operand}
    {s s' : Session} {fault : Fault}
    (h : (t.map fun x => ⟨run x, x.span⟩).run s = .error fault s')
    (hm : fault.cause = .malformedExpression) :
    ∃ x, .operand x ∈ t.items ∧ ∃ s₁, run x s₁ = .error fault s' := by
  induction t generalizing s with
  | operand x => exact ⟨x, by simp [Tree.items], s, h⟩
  | sign op t ih =>
    rw [Tree.map, Tree.run] at h
    rcases of_bind_eq_error h with h | ⟨v, s₁, -, h⟩
    · obtain ⟨x, hx, hrun⟩ := ih h
      exact ⟨x, by simp [Tree.items, hx], hrun⟩
    · exact absurd hm (neverMalformed_sign _ _ _ _ _ _ h)
  | binary op l r ihl ihr =>
    rw [Tree.map, Tree.run] at h
    rcases of_bind_eq_error h with h | ⟨v, s₁, -, h⟩
    · obtain ⟨x, hx, hrun⟩ := ihl h
      exact ⟨x, by simp [Tree.items, hx], hrun⟩
    · rcases of_bind_eq_error h with h | ⟨w, s₂, -, h⟩
      · obtain ⟨x, hx, hrun⟩ := ihr h
        exact ⟨x, by simp [Tree.items, hx], hrun⟩
      · exact absurd hm (neverMalformed_located _ _ _ _ _ _ h)
  | group opening closing t ih =>
    obtain ⟨x, hx, hrun⟩ := ih h
    exact ⟨x, by simp [Tree.items, hx], hrun⟩

theorem operand_of_malformed {run : Operand → Eval Value} {e : Expression}
    (he : IsExpression e.items) {s s' : Session} {fault : Fault}
    (h : expressionBy run e s = .error fault s') (hm : fault.cause = .malformedExpression) :
    ∃ x, .operand x ∈ e.items ∧ ∃ s₁, run x s₁ = .error fault s' := by
  obtain ⟨t, ht, hi⟩ := he.exists_tree
  rw [expressionBy, ← hi, ← Tree.items_map, Tree.runItems_items _ (ht.map _)] at h
  rw [← hi]
  exact Tree.operand_of_run_error h hm

/-! ## Cursors on a text -/

section
variable {text : String}

theorem Cursor.Placed.skip {past read rest : List Token}
    (h : Cursor.Placed text ⟨past, read ++ rest⟩) :
    Cursor.Placed text ⟨read.reverse ++ past, rest⟩ := by
  induction read generalizing past with
  | nil => exact h
  | cons t read ih =>
    obtain ⟨-, ht, hrest⟩ := h.ahead
    have hnext : Cursor.Placed text ⟨t :: past, read ++ rest⟩ := ⟨ht.stop, hrest⟩
    simpa using ih hnext

theorem Cursor.placed_of_tokens {c : Cursor} (h : c.tokens = tokenize text) : c.Placed text := by
  have hstart : Cursor.Placed text ⟨[], c.past.reverse ++ c.ahead⟩ := by
    rw [← Cursor.tokens, h]
    exact placed_ofText text
  simpa using hstart.skip

theorem wellRead_of_expression {c c' : Cursor} {ends : Ending} {e : Expression}
    (hc : c.tokens = tokenize text) (h : Parse.expression ends c = .ok e c') : WellRead text e := by
  have hread := Parse.reader_expression ends c (Cursor.placed_of_tokens hc)
  rw [Parse.Outcome, h] at hread
  exact hread.2 e (mem_withSubexpressions.mpr (.inl rfl))

/-- Whatever the operands do, a sentence is malformed only if an operand is, and what is no sentence
has no value. -/
theorem read_expression_malformed {c c' : Cursor} {ends : Ending} {e : Expression}
    (hc : c.tokens = tokenize text) (h : Parse.expression ends c = .ok e c') :
    Eval.expression e = expressionBy operand e ∧
      (IsExpression e.items → ∀ run s fault s', expressionBy run e s = .error fault s' →
        fault.cause = .malformedExpression →
          ∃ x, .operand x ∈ e.items ∧ ∃ s₁, run x s₁ = .error fault s') ∧
      (¬ IsExpression e.items → ∀ run s v s', expressionBy run e s ≠ .ok v s') := by
  refine ⟨expression_eq_expressionBy e, fun he run s fault s' => operand_of_malformed he, ?_⟩
  intro he run s v s' hv
  exact he ((wellRead_of_expression hc h).isExpression_of_valueBy hv)

def sentence? (ends : Ending) (text : String) : Option Bool :=
  match Parse.expression ends (.ofText text) with
  | .ok e _ => some (Filled true e.items)
  | .error _ _ => none

theorem exists_of_sentence? {ends : Ending} {b : Bool} (h : sentence? ends text = some b) :
    ∃ e c', Parse.expression ends (.ofText text) = .ok e c' ∧ (IsExpression e.items ↔ b = true) := by
  cases hp : Parse.expression ends (.ofText text) with
  | error fault c' => rw [sentence?, hp] at h; cases h
  | ok e c' =>
    rw [sentence?, hp] at h
    cases h
    have hread := wellRead_of_expression (c := .ofText text) rfl hp
    exact ⟨e, c', rfl, by simpa using hread.reads.isExpression_iff⟩

/-- An argument that is a sentence, and one whose last operator has no operand. -/
theorem read_expression_malformed_of_arguments :
    (∃ e c', Parse.expression .argument (.ofText "2 * -(x + f(*)), 1)") = .ok e c' ∧
      ∀ run s fault s', expressionBy run e s = .error fault s' →
        fault.cause = .malformedExpression →
          ∃ x, .operand x ∈ e.items ∧ ∃ s₁, run x s₁ = .error fault s') ∧
    ∃ e c', Parse.expression .argument (.ofText "print(1) - 2 *)") = .ok e c' ∧
      ∀ run s v s', expressionBy run e s ≠ .ok v s' := by
  constructor
  · have hs : sentence? .argument "2 * -(x + f(*)), 1)" = some true := by decide +kernel
    obtain ⟨e, c', hp, he⟩ := exists_of_sentence? hs
    exact ⟨e, c', hp, (read_expression_malformed (c := .ofText _) rfl hp).2.1 (he.mpr rfl)⟩
  · have hs : sentence? .argument "print(1) - 2 *)" = some false := by decide +kernel
    obtain ⟨e, c', hp, he⟩ := exists_of_sentence? hs
    have hnot : ¬ IsExpression e.items := fun h => Bool.false_ne_true (he.mp h)
    exact ⟨e, c', hp, (read_expression_malformed (c := .ofText _) rfl hp).2.2 hnot⟩

end

end MatrixScript
