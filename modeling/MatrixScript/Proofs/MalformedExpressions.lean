import MatrixScript.Proofs.EvaluationSound
import MatrixScript.Proofs.ParsedPrograms
import MatrixScript.Proofs.PostfixOrder

/-!
# Malformed expressions

The parser leaves one thing about an expression open: whether its operators have their operands.
Evaluation finds out by counting, since every operand puts a value on the stack and every binary
operator takes one away.
-/

namespace MatrixScript

variable {ω : Type}

/-! ## Values left on the stack -/

@[simp] def Item.isOperand : Item ω → Bool
  | .operand _ => true
  | _ => false

@[simp] def Postfix.isOperand : Postfix ω → Bool
  | .operand _ => true
  | .operator _ => false

@[simp] def Postfix.isBinary : Postfix ω → Bool
  | .operator (.binary _) => true
  | .operand _ | .operator (.unary _) => false

def Item.map {υ : Type} (f : ω → υ) : Item ω → Item υ
  | .operand x => .operand (f x)
  | .binary op => .binary op
  | .unary op => .unary op
  | .opening span => .opening span
  | .closing span => .closing span

theorem countP_map_isOperand {υ : Type} (f : ω → υ) (items : List (Item ω)) :
    (items.map (Item.map f)).countP Item.isOperand = items.countP Item.isOperand := by
  rw [List.countP_map]
  congr 1
  funext item
  cases item <;> rfl

theorem countP_map_isBinary {υ : Type} (f : ω → υ) (items : List (Item ω)) :
    (items.map (Item.map f)).countP Item.isBinary = items.countP Item.isBinary := by
  rw [List.countP_map]
  congr 1
  funext item
  cases item <;> rfl

theorem countP_isOperand_filterMap (items : List (Item ω)) :
    (items.filterMap Item.postfix?).countP Postfix.isOperand = items.countP Item.isOperand := by
  induction items with
  | nil => rfl
  | cons item items ih =>
    cases item <;> simp [List.filterMap_cons, List.countP_cons, Item.postfix?, ih]

theorem countP_isBinary_filterMap (items : List (Item ω)) :
    (items.filterMap Item.postfix?).countP Postfix.isBinary = items.countP Item.isBinary := by
  induction items with
  | nil => rfl
  | cons item items ih =>
    cases item <;> simp [List.filterMap_cons, List.countP_cons, Item.postfix?, ih]

namespace Eval

theorem exists_of_bind_eq_ok {α β : Type} {x : Eval α} {f : α → Eval β} {s s' : Session} {b : β}
    (h : (x >>= f) s = .ok b s') : ∃ a s₁, f a s₁ = .ok b s' := by
  change EStateM.bind x f s = .ok b s' at h
  unfold EStateM.bind at h
  split at h
  · exact ⟨_, _, h⟩
  · cases h

theorem countP_runPostfix {whole : Span} {items : List (Postfix Action)}
    {stack : List (Located Value)} {s s' : Session} {v : Value}
    (h : runPostfix whole items stack s = .ok v s') :
    stack.length + items.countP Postfix.isOperand = items.countP Postfix.isBinary + 1 := by
  fun_induction runPostfix whole items stack generalizing s with
  | case1 v => simp
  | case2 => cases h
  | case3 _ _ _ ih | case4 _ _ _ _ _ ih | case5 _ _ _ _ ih =>
    obtain ⟨value, s₁, h⟩ := exists_of_bind_eq_ok h
    have hrest := ih value h
    simp only [List.length_cons, List.countP_cons, Postfix.isOperand, Postfix.isBinary,
      Bool.false_eq_true, if_true, if_false] at hrest ⊢
    omega
  | case6 => cases h

def expressionBy (run : Operand → Eval Value) (e : Expression) : Eval Value :=
  runItems e.span (e.items.map (Item.map fun x => ⟨run x, x.span⟩))

theorem expression_eq_expressionBy (e : Expression) : expression e = expressionBy operand e := by
  obtain ⟨items, span⟩ := e
  rw [expression, expressionBy, actions_eq_map]
  refine congrArg (runItems span) (List.map_congr_left fun item _ => ?_)
  cases item <;> rfl

theorem countP_of_value {run : Operand → Eval Value} {e : Expression} {s s' : Session} {v : Value}
    (h : expressionBy run e s = .ok v s') :
    e.items.countP Item.isOperand = e.items.countP Item.isBinary + 1 := by
  rw [expressionBy, Tree.runItems_eq] at h
  split at h
  case h_1 ordered hp =>
    have hcount := countP_runPostfix h
    rw [(perm_toPostfix hp).countP_eq, (perm_toPostfix hp).countP_eq, countP_isOperand_filterMap,
      countP_isBinary_filterMap, countP_map_isOperand, countP_map_isBinary] at hcount
    exact (Nat.zero_add _).symm.trans hcount
  case h_2 => cases h

end Eval

/-! ## Missing operands leave too few values -/

/-- How many more operands than binary operators there can be in items of which the first has the
given slot. -/
def Slot.room : Slot → Nat
  | .operator => 0
  | .operand | .first => 1

theorem Slot.eq_operator_of_room {slot : Slot} (h : slot ≠ .first) (hr : slot.room = 0) :
    slot = .operator := by
  cases slot with
  | operator => rfl
  | operand => cases hr
  | first => exact absurd rfl h

/-- An item uses up what its slot has room for, unless it is not what the slot asks for. -/
theorem Item.count_add_room {slot : Slot} {x : Item ω} (h : slot.Admits x) :
    (if x.isOperand then 1 else 0) + x.slotAfter.room ≤ (if x.isBinary then 1 else 0) + slot.room ∧
      ((if x.isBinary then 1 else 0) + slot.room ≤
          (if x.isOperand then 1 else 0) + x.slotAfter.room →
        x.startsTerm = decide (slot ≠ .operator)) := by
  cases x <;> cases slot <;> simp_all [Slot.Admits, Slot.room]

theorem Reads.countP_le {depth : Nat} {slot : Slot} {items : List (Item ω)}
    (h : Reads depth slot items) :
    items.countP Item.isOperand ≤ items.countP Item.isBinary + slot.room ∧
      (items.countP Item.isBinary + slot.room ≤ items.countP Item.isOperand →
        Filled (slot ≠ .operator) items) := by
  induction items generalizing depth slot with
  | nil =>
    cases h with
    | nil h =>
      refine ⟨Nat.zero_le _, fun hr => ?_⟩
      have hroom : slot.room = 0 := by simpa using hr
      obtain rfl := Slot.eq_operator_of_room h hroom
      rfl
  | cons x items ih =>
    obtain ⟨depth', hrest⟩ := h.tail
    obtain ⟨hle, hfilled⟩ := ih hrest
    obtain ⟨hx, hstarts⟩ := Item.count_add_room h.admits
    rw [List.countP_cons, List.countP_cons]
    -- with room to spare at one item, there is room to spare in the end
    refine ⟨by omega, fun hr => ⟨hstarts (by omega), ?_⟩⟩
    rw [← Item.slotAfter_ne_operator]
    exact hfilled (by omega)

theorem WellRead.isExpression_of_valueBy {text : String} {e : Expression} (h : WellRead text e)
    {run : Operand → Eval Value} {s s' : Session} {v : Value}
    (hv : Eval.expressionBy run e s = .ok v s') : IsExpression e.items := by
  have hcount := Eval.countP_of_value hv
  exact h.reads.isExpression_iff.mpr (h.reads.countP_le.2 hcount.ge)

theorem WellRead.isExpression_of_value {text : String} {e : Expression} (h : WellRead text e)
    {s s' : Session} {v : Value} (hv : Eval.expression e s = .ok v s') : IsExpression e.items := by
  rw [Eval.expression_eq_expressionBy] at hv
  exact h.isExpression_of_valueBy hv

/-! ## Accepted texts -/

/-- An expression of an accepted text is a sentence as soon as its operators have their operands,
and otherwise evaluation always ends in a fault. -/
theorem accepted_expression {text : String} {script : List Statement}
    (h : parseScript text = .ok script) {s : Statement} (hs : s ∈ script) {e : Expression}
    (he : e ∈ s.expressions) :
    (IsExpression e.items ↔ OperatorsApply e.items) ∧
      (¬ OperatorsApply e.items →
        ∀ session, ∃ fault session', Eval.expression e session = .error fault session') := by
  have hread : WellRead text e := (statementRead_of_parseScript h s hs).inside e he
  have hiff := hread.reads.isExpression_iff_operatorsApply hread.ne_nil
  refine ⟨hiff, fun hmissing session => ?_⟩
  cases hv : Eval.expression e session with
  | ok v session' => exact absurd (hiff.mp (hread.isExpression_of_value hv)) hmissing
  | error fault session' => exact ⟨fault, session', rfl⟩

theorem exists_of_sentencesOnly? {text : String} (h : sentencesOnly? text = some false) :
    ∃ script, parseScript text = .ok script ∧
      ∃ s ∈ script, ∃ e ∈ s.expressions, ¬ IsExpression e.items := by
  cases hp : parseScript text with
  | error fault => rw [sentencesOnly?, hp] at h; cases h
  | ok script =>
    have hnot := mt ((sentencesOnly?_eq_some_iff hp).mp h).mpr Bool.false_ne_true
    push Not at hnot
    exact ⟨script, rfl, hnot⟩

/-- The argument of `f` ends with an operator. -/
theorem accepted_expression_of_nested_call :
    ∃ script, parseScript "print(1 + f(2 *));" = .ok script ∧
      ∃ s ∈ script, ∃ e ∈ s.expressions, ¬ IsExpression e.items ∧
        (IsExpression e.items ↔ OperatorsApply e.items) ∧
          (¬ OperatorsApply e.items →
            ∀ session, ∃ fault session', Eval.expression e session = .error fault session') := by
  have honly : sentencesOnly? "print(1 + f(2 *));" = some false := by decide +kernel
  obtain ⟨script, h, s, hs, e, he, hnot⟩ := exists_of_sentencesOnly? honly
  exact ⟨script, h, s, hs, e, he, hnot, accepted_expression h hs he⟩

/-- Not every expression of an accepted text is a sentence: operators are not checked for their
operands. -/
theorem dangling_operator_accepted :
    ∃ script, parseScript "let x = 1 +;" = .ok script ∧
      ∃ s ∈ script, ∃ e ∈ s.expressions, ¬ IsExpression e.items :=
  have honly : sentencesOnly? "let x = 1 +;" = some false := by decide +kernel
  exists_of_sentencesOnly? honly

end MatrixScript
