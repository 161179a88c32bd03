import MatrixScript.Postfix
import MatrixScript.Proofs.Results
import Mathlib.Tactic.Tauto

/-!
# Reordering keeps operands and operators

Postfix items are the operands and operators of the infix items, in another order.  What cannot be
reordered has a parenthesis without a partner.
-/

namespace MatrixScript

variable {ω : Type}

/-- What an item becomes in postfix order; parentheses vanish. -/
def Item.postfix? : Item ω → Option (Postfix ω)
  | .operand x => some (.operand x)
  | .binary op => some (.operator (.binary op))
  | .unary op => some (.operator (.unary op))
  | .opening _ | .closing _ => none

def outside (groups : List (Span × List Operator)) : List Operator := groups.flatMap (·.2)

theorem perm_release {waiting : List Operator} {ops : List Operator} {rest front : List (Postfix ω)}
    (h : rest.Perm (front ++ ops.map .operator)) :
    (release waiting rest).Perm (front ++ (waiting ++ ops).map .operator) := by
  rw [release, List.map_append]
  exact (h.append_left _).trans (List.perm_append_comm_assoc ..)

theorem perm_takeWhile_cons_dropWhile (op : Located BinaryOp) (waiting : List Operator) :
    (waiting.takeWhile (·.precedes (.binary op)) ++
      .binary op :: waiting.dropWhile (·.precedes (.binary op))).Perm (.binary op :: waiting) := by
  have h : (.binary op :: (waiting.takeWhile (·.precedes (.binary op)) ++
      waiting.dropWhile (·.precedes (.binary op)))) = .binary op :: waiting := by
    rw [List.takeWhile_append_dropWhile]
  exact h ▸ List.perm_middle

theorem perm_toPostfixFrom {waiting : List Operator} {groups : List (Span × List Operator)}
    {items : List (Item ω)} {out : List (Postfix ω)}
    (h : toPostfixFrom waiting groups items = .ok out) :
    out.Perm (items.filterMap Item.postfix? ++ (waiting ++ outside groups).map .operator) := by
  induction items generalizing waiting groups out with
  | nil =>
    cases groups with
    | nil => cases h; simp [release, outside]
    | cons group groups => cases h
  | cons item items ih =>
    cases item with
    | operand x =>
      obtain ⟨rest, hrest, rfl⟩ := map_eq_ok_iff.mp h
      exact (ih hrest).cons _
    | unary op => exact (ih h).trans List.perm_middle
    | binary op =>
      -- `op` takes the place of the waiting operators that it releases
      obtain ⟨rest, hrest, rfl⟩ := map_eq_ok_iff.mp h
      have hops := (perm_takeWhile_cons_dropWhile op waiting).append_right (outside groups)
      rw [List.append_assoc] at hops
      exact (perm_release (ih hrest)).trans
        (((hops.map _).append_left _).trans List.perm_middle)
    | opening span =>
      -- what waits now waits outside the new group
      have hi := ih h
      exact hi
    | closing span =>
      cases groups with
      | nil => cases h
      | cons group groups =>
        obtain ⟨rest, hrest, rfl⟩ := map_eq_ok_iff.mp h
        exact perm_release (ih hrest)

theorem perm_toPostfix {items : List (Item ω)} {out : List (Postfix ω)}
    (h : toPostfix items = .ok out) : out.Perm (items.filterMap Item.postfix?) := by
  simpa [outside] using perm_toPostfixFrom h

theorem toPostfixFrom_eq_error {waiting : List Operator} {groups : List (Span × List Operator)}
    {items : List (Item ω)} {parenthesis : Span}
    (h : toPostfixFrom waiting groups items = .error parenthesis) :
    .opening parenthesis ∈ items ∨ .closing parenthesis ∈ items ∨
      parenthesis ∈ groups.map (·.1) := by
  induction items generalizing waiting groups with
  | nil =>
    cases groups with
    | nil => cases h
    | cons group groups => cases h; simp
  | cons item items ih =>
    cases item with
    | operand x => simpa using ih (map_eq_error_iff.mp h)
    | unary op => simpa using ih h
    | binary op => simpa using ih (map_eq_error_iff.mp h)
    | opening span =>
      have hi := ih h
      simp only [List.map_cons, List.mem_cons, Item.opening.injEq, reduceCtorEq, false_or] at hi ⊢
      tauto
    | closing span =>
      cases groups with
      | nil => cases h; simp
      | cons group groups =>
        have hi := ih (map_eq_error_iff.mp h)
        simp only [List.map_cons, List.mem_cons, Item.closing.injEq, reduceCtorEq, false_or] at hi ⊢
        tauto

theorem toPostfix_eq_error {items : List (Item ω)} {parenthesis : Span}
    (h : toPostfix items = .error parenthesis) :
    .opening parenthesis ∈ items ∨ .closing parenthesis ∈ items := by
  simpa using toPostfixFrom_eq_error h

end MatrixScript
