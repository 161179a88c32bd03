import MatrixScript.Proofs.Instructions
import MatrixScript.Proofs.ProgramShapes

/-!
# Where instructions come from

What the instructions of a program do to the variables and to the output depends on the names in
them.  Every instruction with a name comes from an operand of an expression, at whatever depth, or
is the last one of a statement.
-/

namespace MatrixScript

def Instruction.IsPlain : Instruction → Prop
  | .binary _ | .unary _ | .place _ | .element | .matrix _ _ | .fail _ _ => True
  | .push _ | .load _ | .invoke _ _ _ | .declare _ => False

/-- What an operand itself adds to the code.  A symbol is looked up, or declared by the call that it
is an argument of. -/
inductive Operand.Emits : Operand → Instruction → Prop
  | number (n : Located Int64) : Emits (.number n) (.push ⟨.integer n.value, n.span⟩)
  | load (s : Located String) : Emits (.symbol s) (.load s)
  | declared (s : Located String) (span : Span) : Emits (.symbol s) (.push ⟨.symbol s.value, span⟩)
  | invoke (c : Call) : Emits (.call c) (.invoke c.name (c.args.map (·.span)) c.span)

namespace Instruction

def ComesFrom (es : List Expression) (i : Instruction) : Prop :=
  i.IsPlain ∨ ∃ e ∈ es, ∃ x, .operand x ∈ e.items ∧ x.Emits i

variable {es es' : List Expression} {i : Instruction}

theorem ComesFrom.mono (h : i.ComesFrom es) (hsub : es ⊆ es') : i.ComesFrom es' := by
  rcases h with h | ⟨e, he, hx⟩
  · exact .inl h
  · exact .inr ⟨e, hsub he, hx⟩

end Instruction

/-! ## The code of an expression -/

section
variable {whole : Span} {i : Instruction}

theorem mem_postfixCode {height : Nat} {ordered : List (Postfix Code)}
    (h : i ∈ postfixCode whole height ordered) :
    i.IsPlain ∨ ∃ code, .operand code ∈ ordered ∧ i ∈ code := by
  fun_induction postfixCode whole height ordered with
  | case1 => exact .inl (by rw [List.mem_singleton.mp h]; trivial)
  | case2 => exact .inl (by rw [List.mem_singleton.mp h]; trivial)
  | case3 height code rest ih =>
    rcases List.mem_append.mp h with h | h
    · exact .inr ⟨code, List.mem_cons_self, h⟩
    · exact (ih h).imp_right fun ⟨code, hcode, hi⟩ => ⟨code, List.mem_cons_of_mem _ hcode, hi⟩
  | case4 height op rest ih | case5 height op rest ih =>
    rcases List.mem_cons.mp h with rfl | h
    · exact .inl trivial
    · exact (ih h).imp_right fun ⟨code, hcode, hi⟩ => ⟨code, List.mem_cons_of_mem _ hcode, hi⟩
  | case6 => exact .inl (by rw [List.mem_singleton.mp h]; trivial)

theorem mem_infixCode {items : List (Item Operand)} (h : i ∈ infixCode whole (itemCodes items)) :
    i.IsPlain ∨ ∃ x, .operand x ∈ items ∧ i ∈ operandCode x := by
  rw [infixCode, itemCodes_eq_map] at h
  split at h
  · next ordered hp =>
    rcases mem_postfixCode h with hplain | ⟨code, hcode, hi⟩
    · exact .inl hplain
    · obtain ⟨item, hitem, heq⟩ := List.mem_map.mp (mem_of_toPostfix hp hcode)
      cases item with
      | operand x => cases heq; exact .inr ⟨x, hitem, hi⟩
      | binary op => cases heq
      | unary op => cases heq
      | opening span => cases heq
      | closing span => cases heq
  · exact .inl (by rw [List.mem_singleton.mp h]; trivial)

end

def Operand.Traced (x : Operand) : Prop :=
  ∀ i ∈ operandCode x, x.Emits i ∨ i.ComesFrom x.expressions

section
variable {e : Expression} {es : List Expression}

theorem comesFrom_infixCode (hx : ∀ x, .operand x ∈ e.items → x.Traced) :
    ∀ i ∈ infixCode e.span (itemCodes e.items), i.ComesFrom (withSubexpressions e) := by
  intro i hi
  rcases mem_infixCode hi with hi | ⟨x, hmem, hi⟩
  · exact .inl hi
  · rcases hx x hmem i hi with hi | hi
    · exact .inr ⟨e, mem_withSubexpressions.mpr (.inl rfl), x, hmem, hi⟩
    · exact hi.mono fun e' he' => mem_withSubexpressions.mpr (.inr ⟨x, hmem, he'⟩)

theorem comesFrom_argumentCode (hx : ∀ x, .operand x ∈ e.items → x.Traced) (declares : Bool) :
    ∀ i ∈ argumentCode declares e, i.ComesFrom (withSubexpressions e) := by
  obtain ⟨items, span⟩ := e
  intro i hi
  rw [argumentCode] at hi
  split at hi
  · next name hname =>
    obtain ⟨-, s, rfl, rfl⟩ := Eval.exists_of_declaredName? hname
    rw [List.mem_singleton.mp hi]
    exact .inr ⟨_, mem_withSubexpressions.mpr (.inl rfl), .symbol s, List.mem_cons_self,
      .declared s span⟩
  · exact comesFrom_infixCode hx i hi

theorem comesFrom_argumentsCode_of (hx : ∀ e ∈ es, ∀ x, .operand x ∈ e.items → x.Traced)
    (declares : Bool) : ∀ i ∈ argumentsCode declares es, i.ComesFrom (allExpressions es) := by
  induction es generalizing declares with
  | nil => exact List.forall_mem_nil _
  | cons e es ih =>
    obtain ⟨he, hes⟩ := List.forall_mem_cons.mp hx
    rw [argumentsCode, allExpressions]
    exact List.forall_mem_append.mpr
      ⟨fun i hi => (comesFrom_argumentCode he declares i hi).mono (List.subset_append_left _ _),
        fun i hi => (ih hes false i hi).mono (List.subset_append_right _ _)⟩

theorem comesFrom_elementsCode (hx : ∀ e ∈ es, ∀ x, .operand x ∈ e.items → x.Traced) :
    ∀ i ∈ elementsCode es, i.ComesFrom (allExpressions es) := by
  induction es with
  | nil => exact List.forall_mem_nil _
  | cons e es ih =>
    obtain ⟨he, hes⟩ := List.forall_mem_cons.mp hx
    rw [elementsCode, allExpressions, expressionCode]
    exact List.forall_mem_append.mpr
      ⟨fun i hi => (comesFrom_infixCode he i hi).mono (List.subset_append_left _ _),
        List.forall_mem_cons.mpr ⟨.inl trivial,
          fun i hi => (ih hes i hi).mono (List.subset_append_right _ _)⟩⟩

theorem comesFrom_rowsCode {rows : List Row}
    (hx : ∀ row ∈ rows, ∀ e ∈ row.items, ∀ x, .operand x ∈ e.items → x.Traced) :
    ∀ i ∈ rowsCode rows, i.ComesFrom (rowsExpressions rows) := by
  induction rows with
  | nil => exact List.forall_mem_nil _
  | cons row rows ih =>
    obtain ⟨hrow, hrows⟩ := List.forall_mem_cons.mp hx
    rw [rowsCode, rowsExpressions, rowCode, rowExpressions]
    exact List.forall_mem_append.mpr
      ⟨fun i hi => (comesFrom_elementsCode hrow i hi).mono (List.subset_append_left _ _),
        fun i hi => (ih hrows i hi).mono (List.subset_append_right _ _)⟩

end

theorem Operand.traced (x : Operand) : x.Traced := by
  refine Operand.induct (fun x hx => ?_) x
  cases x with
  | number n =>
    exact List.forall_mem_singleton.mpr (.inl (.number n))
  | symbol s => exact List.forall_mem_singleton.mpr (.inl (.load s))
  | call c =>
    obtain ⟨name, args, span, parens⟩ := c
    exact List.forall_mem_append.mpr
      ⟨fun i hi => .inr (comesFrom_argumentsCode_of hx _ i hi),
        List.forall_mem_singleton.mpr (.inl (.invoke ⟨name, args, span, parens⟩))⟩
  | matrix m =>
    obtain ⟨rows, span⟩ := m
    refine List.forall_mem_append.mpr ⟨fun i hi => .inr ?_,
      List.forall_mem_singleton.mpr (.inr (.inl trivial))⟩
    exact comesFrom_rowsCode
      (fun row hrow e he => hx e (List.mem_flatMap.mpr ⟨row, hrow, he⟩)) i hi

theorem comesFrom_expressionCode (e : Expression) :
    ∀ i ∈ expressionCode e, i.ComesFrom (withSubexpressions e) := by
  rw [expressionCode]
  exact comesFrom_infixCode fun x _ => x.traced

theorem comesFrom_argumentsCode (declares : Bool) (es : List Expression) :
    ∀ i ∈ argumentsCode declares es, i.ComesFrom (allExpressions es) :=
  comesFrom_argumentsCode_of (fun _ _ x _ => x.traced) declares

end MatrixScript
