import MatrixScript.Proofs.Instructions
import MatrixScript.Proofs.Rationals

/-!
# Absorbed signs

A minus sign before a number without a sign can become part of the number.  That changes neither how
an expression is read nor what it evaluates to, down to the spans of its faults.
-/

namespace MatrixScript

open Eval

/-- Puts an item in front.  A minus sign becomes part of a number that has none. -/
def attach : Item Operand → List (Item Operand) → List (Item Operand)
  | .unary ⟨.neg, span⟩, .operand (.number n) :: items =>
    if 0 ≤ n.value then .operand (.number ⟨-n.value, span.through n.span⟩) :: items
    else .unary ⟨.neg, span⟩ :: .operand (.number n) :: items
  | item, items => item :: items

/-- Minus signs become part of the numbers they stand before, from right to left, so that none is
left that could: the two signs of `- -0` are both absorbed, since `-0` is `0`. -/
def absorb (items : List (Item Operand)) : List (Item Operand) := items.foldr attach []

/-- The item is put in front as it is, or it is a sign that becomes part of a number. -/
theorem attach_cases (item : Item Operand) (items : List (Item Operand)) :
    attach item items = item :: items ∨
      ∃ span n rest, item = .unary ⟨.neg, span⟩ ∧ items = .operand (.number n) :: rest ∧
        0 ≤ n.value ∧
        attach item items = .operand (.number ⟨-n.value, span.through n.span⟩) :: rest := by
  unfold attach
  split
  · next span n rest =>
    split
    · next hn => exact .inr ⟨span, n, rest, rfl, rfl, hn, rfl⟩
    · exact .inl rfl
  · exact .inl rfl

theorem attach_ne_nil (item : Item Operand) (items : List (Item Operand)) :
    attach item items ≠ [] := by
  rcases attach_cases item items with h | ⟨span, n, rest, -, -, -, h⟩
  · simp [h]
  · simp [h]

/-! ## Reading -/

theorem Reads.cons_congr {ω : Type} {depth : Nat} {slot : Slot} {item : Item ω}
    {items items' : List (Item ω)} (h : Reads depth slot (item :: items))
    (hrest : ∀ depth slot, Reads depth slot items → Reads depth slot items') :
    Reads depth slot (item :: items') := by
  cases h with
  | operand x hs h => exact .operand x hs (hrest _ _ h)
  | unary op hs h => exact .unary op hs (hrest _ _ h)
  | binary op h => exact .binary op (hrest _ _ h)
  | opening span hs h => exact .opening span hs (hrest _ _ h)
  | closing span hs h => exact .closing span hs (hrest _ _ h)

theorem reads_absorb {depth : Nat} {slot : Slot} {items : List (Item Operand)}
    (h : Reads depth slot items) : Reads depth slot (absorb items) := by
  induction items generalizing depth slot with
  | nil => exact h
  | cons item items ih =>
    have hcons : Reads depth slot (item :: absorb items) := h.cons_congr fun _ _ => ih
    change Reads depth slot (attach item (absorb items))
    rcases attach_cases item (absorb items) with heq | ⟨span, n, rest, rfl, hitems, -, heq⟩
    · rwa [heq]
    · rw [heq]
      rw [hitems] at hcons
      cases hcons with
      | unary _ hs h =>
        cases h with
        | operand _ _ h => exact .operand _ hs h

/-! ## Evaluating -/

/-- The reordered items are the same to evaluate, or the same parenthesis has no partner. -/
def SameRun (p q : Except Span (List (Postfix Operand))) : Prop :=
  match p, q with
  | .ok xs, .ok ys => ∀ whole stack, runPostfix whole (xs.map (Postfix.map operandAction)) stack =
      runPostfix whole (ys.map (Postfix.map operandAction)) stack
  | .error s, .error t => s = t
  | _, _ => False

namespace SameRun

variable {p q r : Except Span (List (Postfix Operand))}

theorem refl (p : Except Span (List (Postfix Operand))) : SameRun p p := by
  cases p with
  | ok xs => exact fun whole stack => rfl
  | error s => rfl

theorem trans (h : SameRun p q) (h' : SameRun q r) : SameRun p r := by
  cases p <;> cases q <;> cases r <;> first | exact h.elim | exact h'.elim | skip
  · exact Eq.trans h h'
  · exact fun whole stack => (h whole stack).trans (h' whole stack)

theorem map {f f' : List (Postfix Operand) → List (Postfix Operand)} (h : SameRun p q)
    (hf : ∀ xs ys, SameRun (.ok xs) (.ok ys) → SameRun (.ok (f xs)) (.ok (f' ys))) :
    SameRun (f <$> p) (f' <$> q) := by
  cases p <;> cases q <;> first | exact h.elim | skip
  · exact h
  · exact hf _ _ h

theorem operand (x : Operand) (h : SameRun p q) :
    SameRun ((.operand x :: ·) <$> p) ((.operand x :: ·) <$> q) :=
  h.map fun xs ys h whole stack => by
    simp only [List.map_cons, Postfix.map, runPostfix]
    exact bind_congr fun v => h whole _

theorem operator (op : Operator) {xs ys : List (Postfix Operand)} (h : SameRun (.ok xs) (.ok ys)) :
    SameRun (.ok (.operator op :: xs)) (.ok (.operator op :: ys)) := by
  intro whole stack
  simp only [List.map_cons, Postfix.map]
  cases op with
  | binary op =>
    rcases stack with _ | ⟨y, _ | ⟨x, stack⟩⟩
    · rfl
    · rfl
    · exact bind_congr fun v => h whole _
  | unary op =>
    cases stack with
    | nil => rfl
    | cons x stack => exact bind_congr fun v => h whole _

theorem release (waiting : List Operator) (h : SameRun p q) :
    SameRun (release waiting <$> p) (release waiting <$> q) := by
  refine h.map fun xs ys h => ?_
  induction waiting with
  | nil => exact h
  | cons op waiting ih => exact operator op ih

end SameRun

theorem toPostfixFrom_cons_congr (item : Item Operand) {items items' : List (Item Operand)}
    (h : ∀ waiting groups,
      SameRun (toPostfixFrom waiting groups items) (toPostfixFrom waiting groups items'))
    (waiting : List Operator) (groups : List (Span × List Operator)) :
    SameRun (toPostfixFrom waiting groups (item :: items))
      (toPostfixFrom waiting groups (item :: items')) := by
  cases item with
  | operand x => exact (h waiting groups).operand x
  | binary op => exact (h _ groups).release _
  | unary op => exact h _ groups
  | opening span => exact h _ _
  | closing span =>
    cases groups with
    | nil => rfl
    | cons group groups => exact (h _ groups).release _

/-- After an operand, a waiting sign comes next. -/
theorem toPostfixFrom_sign {ω : Type} {depth : Nat} {items : List (Item ω)}
    (h : Reads depth .operator items) (op : Located UnaryOp) (waiting : List Operator)
    (groups : List (Span × List Operator)) :
    toPostfixFrom (.unary op :: waiting) groups items =
      (.operator (.unary op) :: ·) <$> toPostfixFrom waiting groups items := by
  cases h with
  | nil => cases groups <;> rfl
  | operand x hs => exact absurd rfl hs
  | unary op hs => exact absurd rfl hs
  | opening span hs => exact absurd rfl hs
  | closing span =>
    cases groups with
    | nil => rfl
    | cons group groups =>
      rw [toPostfixFrom, toPostfixFrom]
      cases toPostfixFrom group.2 groups _ <;> rfl
  | binary op' =>
    have hprecedes : (Operator.unary op).precedes (.binary op') = true := by
      obtain ⟨value, span⟩ := op'
      obtain ⟨value', span'⟩ := op
      cases value <;> cases value' <;> rfl
    rw [toPostfixFrom, toPostfixFrom, List.takeWhile_cons_of_pos (by exact hprecedes),
      List.dropWhile_cons_of_pos (by exact hprecedes)]
    cases toPostfixFrom _ groups _ <;> rfl

theorem toInt_neg_of_nonneg {n : Int64} (hn : 0 ≤ n) : (-n).toInt = -n.toInt := by
  have hle : 0 ≤ n.toInt := Int64.le_iff_toInt_le.mp hn
  have hlt := n.toInt_lt
  rw [Int64.toInt_neg]
  exact Int.bmod_eq_of_le (by omega) (by omega)

theorem neg_ofInt64 {n : Int64} (hn : 0 ≤ n) :
    (Fraction.ofInt64 n).neg = .ok (Fraction.ofInt64 (-n)) := by
  have htoRat (m : Int64) : (Fraction.ofInt64 m).toRat = (m.toInt : ℚ) := rfl
  rw [Fraction.neg_eq_ok_iff, htoRat, htoRat, toInt_neg_of_nonneg hn, Int.cast_neg]

theorem sign_number {n : Int64} (hn : 0 ≤ n) (place span : Span) :
    sign ⟨.neg, place⟩ (.integer n) span = pure (.integer (-n)) := by
  have hneg : (Value.integer n).neg? = some (.ok (.integer (-n))) := by
    have hscalar : Value.scalar (.ofInt64 (-n)) = .integer (-n) :=
      congrArg Value.integer (Int64.ofInt_toInt (-n))
    rw [Value.neg?, neg_ofInt64 hn, ← hscalar]
    rfl
  rw [sign, hneg]
  rfl

theorem toPostfixFrom_absorb {depth : Nat} {slot : Slot} {items : List (Item Operand)}
    (h : Reads depth slot items) (waiting : List Operator) (groups : List (Span × List Operator)) :
    SameRun (toPostfixFrom waiting groups items) (toPostfixFrom waiting groups (absorb items)) := by
  induction items generalizing depth slot waiting groups with
  | nil => exact .refl _
  | cons item items ih =>
    obtain ⟨depth', hrest⟩ := h.tail
    have hcons := toPostfixFrom_cons_congr item (ih hrest) waiting groups
    change SameRun _ (toPostfixFrom waiting groups (attach item (absorb items)))
    rcases attach_cases item (absorb items) with heq | ⟨span, n, rest, rfl, hitems, hn, heq⟩
    · rwa [heq]
    · rw [hitems] at hcons
      rw [heq]
      refine hcons.trans ?_
      -- the sign waits no longer than for the number
      obtain ⟨depth', hafter⟩ := (hitems ▸ reads_absorb hrest).tail
      rw [toPostfixFrom, toPostfixFrom, toPostfixFrom, toPostfixFrom_sign hafter]
      cases toPostfixFrom waiting groups rest with
      | error s => rfl
      | ok ordered =>
        intro whole stack
        have hsign := sign_number hn span n.span
        change (sign ⟨.neg, span⟩ (.integer n.value) n.span >>= fun v =>
          runPostfix whole _ (⟨v, span.through n.span⟩ :: stack)) = _
        rw [hsign, pure_bind]
        rfl

theorem runItems_absorb {items : List (Item Operand)} (h : Reads 0 .operand items) (whole : Span) :
    runItems whole (actions (absorb items)) = runItems whole (actions items) := by
  have hsame := toPostfixFrom_absorb h [] []
  rw [Tree.runItems_eq, Tree.runItems_eq, actions_eq_map_operandAction,
    actions_eq_map_operandAction, toPostfix_map, toPostfix_map]
  unfold toPostfix
  cases hp : toPostfixFrom [] [] items with
  | ok xs =>
    cases hq : toPostfixFrom [] [] (absorb items) with
    | ok ys =>
      rw [hp, hq] at hsame
      exact (hsame whole []).symm
    | error s => rw [hp, hq] at hsame; exact hsame.elim
  | error s =>
    cases hq : toPostfixFrom [] [] (absorb items) with
    | ok ys => rw [hp, hq] at hsame; exact hsame.elim
    | error t =>
      rw [hp, hq] at hsame
      exact congrArg (fun s => fail .malformedExpression [s]) hsame.symm

theorem absorb_eq_symbol {items : List (Item Operand)} {s : Located String} :
    absorb items = [.operand (.symbol s)] ↔ items = [.operand (.symbol s)] := by
  refine ⟨fun h => ?_, fun h => by rw [h]; rfl⟩
  cases items with
  | nil => cases h
  | cons item items =>
    change attach item (absorb items) = _ at h
    rcases attach_cases item (absorb items) with heq | ⟨span, n, rest, -, -, -, heq⟩
    · obtain ⟨rfl, hitems⟩ := List.cons.inj (heq.symm.trans h)
      cases items with
      | nil => rfl
      | cons item items => exact absurd hitems (attach_ne_nil _ _)
    · cases heq.symm.trans h

end MatrixScript
