import MatrixScript.Program.Parser
import MatrixScript.Proofs.ExpressionTrees
import Mathlib.Data.List.Chain

/-!
# The grammar of expressions

The items of an expression against the grammar of the language.  Reading items from left to right,
with the depth of parentheses and the slot of the next item, tells sentences apart: where no two
terms are adjacent and the parentheses match, all that can be missing is an operand of an operator.
-/

namespace MatrixScript

variable {ω : Type}

mutual

/-- `term ((+|-|*|/) term)*`. -/
inductive IsExpression : List (Item ω) → Prop
  | term {xs : List (Item ω)} (h : IsTerm xs) : IsExpression xs
  | binary {xs ys : List (Item ω)} (op : Located BinaryOp) (hx : IsExpression xs)
      (hy : IsTerm ys) : IsExpression (xs ++ .binary op :: ys)

/-- `(+|-)* (operand | "(" expression ")")`. -/
inductive IsTerm : List (Item ω) → Prop
  | operand (x : ω) : IsTerm [.operand x]
  | sign {xs : List (Item ω)} (op : Located UnaryOp) (h : IsTerm xs) : IsTerm (.unary op :: xs)
  | group {xs : List (Item ω)} (opening closing : Span) (h : IsExpression xs) :
      IsTerm (.opening opening :: (xs ++ [.closing closing]))

end

/-! ## Sentences are written trees -/

namespace Tree

def snoc (t : Tree ω) (op : Located BinaryOp) (r : Tree ω) : Tree ω :=
  match t with
  | .binary op' a b =>
    if op'.value.precedence < op.value.precedence then .binary op' a (b.snoc op r)
    else .binary op (.binary op' a b) r
  | .operand x => .binary op (.operand x) r
  | .sign op' t => .binary op (.sign op' t) r
  | .group opening closing t => .binary op (.group opening closing t) r

theorem items_snoc (t : Tree ω) (op : Located BinaryOp) (r : Tree ω) :
    (t.snoc op r).items = t.items ++ .binary op :: r.items := by
  induction t with
  | operand x => rfl
  | sign op' t _ => rfl
  | group opening closing t _ => rfl
  | binary op' a b _ ih =>
    rw [snoc]
    split
    · simp [items, ih]
    · rfl

theorem lt_strength_snoc {p : Precedence} {t : Tree ω} {op : Located BinaryOp} {r : Tree ω}
    (hop : p < op.value.precedence) (ht : p < t.strength) : p < (t.snoc op r).strength := by
  -- either the new operator is at the root, or the old one stays there
  cases t with
  | operand x => exact hop
  | sign op' t => exact hop
  | group opening closing t => exact hop
  | binary op' a b =>
    rw [snoc]
    split
    · exact ht
    · exact hop

theorem Grouped.snoc {t : Tree ω} {op : Located BinaryOp} {r : Tree ω} (ht : t.Grouped)
    (hr : r.Grouped) (hs : .sign ≤ r.strength) : (t.snoc op r).Grouped := by
  have hright : op.value.precedence < r.strength :=
    Nat.lt_of_lt_of_le op.value.precedence_lt_sign hs
  have hleft : op.value.precedence ≤ .sign := Nat.le_of_lt op.value.precedence_lt_sign
  induction t with
  | operand x => exact ⟨hleft, hright, ht, hr⟩
  | sign op' t _ => exact ⟨hleft, hright, ht, hr⟩
  | group opening closing t _ => exact ⟨hleft, hright, ht, hr⟩
  | binary op' a b _ ih =>
    rw [Tree.snoc]
    split
    case isTrue hlt =>
      obtain ⟨ha, hb, hga, hgb⟩ := ht
      exact ⟨ha, lt_strength_snoc hlt hb, hga, ih hgb⟩
    case isFalse hle => exact ⟨Nat.not_lt.mp hle, hright, ht, hr⟩

end Tree

mutual

theorem IsExpression.exists_tree {xs : List (Item ω)} (h : IsExpression xs) :
    ∃ t : Tree ω, t.Grouped ∧ t.items = xs := by
  match h with
  | .term h =>
    obtain ⟨t, ht, -, hi⟩ := h.exists_tree
    exact ⟨t, ht, hi⟩
  | .binary op hx hy =>
    obtain ⟨t, ht, rfl⟩ := hx.exists_tree
    obtain ⟨r, hr, hs, rfl⟩ := hy.exists_tree
    exact ⟨t.snoc op r, ht.snoc hr hs, t.items_snoc op r⟩

theorem IsTerm.exists_tree {xs : List (Item ω)} (h : IsTerm xs) :
    ∃ t : Tree ω, t.Grouped ∧ .sign ≤ t.strength ∧ t.items = xs := by
  match h with
  | .operand x => exact ⟨.operand x, trivial, Nat.le_refl _, rfl⟩
  | .sign op h =>
    obtain ⟨t, ht, hs, rfl⟩ := h.exists_tree
    exact ⟨.sign op t, ⟨hs, ht⟩, Nat.le_refl _, rfl⟩
  | .group opening closing h =>
    obtain ⟨t, ht, rfl⟩ := h.exists_tree
    exact ⟨.group opening closing t, ht, Nat.le_refl _, rfl⟩

end

/-! ## Reading items from left to right -/

namespace Item

@[simp] def isBinary : Item ω → Bool
  | .binary _ => true
  | _ => false

@[simp] def isOperator : Item ω → Bool
  | .binary _ | .unary _ => true
  | _ => false

@[simp] def startsTerm : Item ω → Bool
  | .operand _ | .unary _ | .opening _ => true
  | .binary _ | .closing _ => false

@[simp] def endsTerm : Item ω → Bool
  | .operand _ | .closing _ => true
  | .unary _ | .opening _ | .binary _ => false

end Item

/-- The rest of a list of items, of which `depth` parentheses are open and `slot` comes next.  Terms
are not adjacent, groups not empty, and all parentheses match. -/
inductive Reads : Nat → Slot → List (Item ω) → Prop
  | nil {slot : Slot} (h : slot ≠ .first) : Reads 0 slot []
  | operand {depth : Nat} {slot : Slot} {items : List (Item ω)} (x : ω) (h : slot ≠ .operator)
      (rest : Reads depth .operator items) : Reads depth slot (.operand x :: items)
  | unary {depth : Nat} {slot : Slot} {items : List (Item ω)} (op : Located UnaryOp)
      (h : slot ≠ .operator) (rest : Reads depth .operand items) :
      Reads depth slot (.unary op :: items)
  | binary {depth : Nat} {slot : Slot} {items : List (Item ω)} (op : Located BinaryOp)
      (rest : Reads depth .operand items) : Reads depth slot (.binary op :: items)
  | opening {depth : Nat} {slot : Slot} {items : List (Item ω)} (span : Span)
      (h : slot ≠ .operator) (rest : Reads (depth + 1) .first items) :
      Reads depth slot (.opening span :: items)
  | closing {depth : Nat} {slot : Slot} {items : List (Item ω)} (span : Span)
      (h : slot ≠ .first) (rest : Reads depth .operator items) :
      Reads (depth + 1) slot (.closing span :: items)

def Filled (due : Bool) : List (Item ω) → Prop
  | [] => due = false
  | item :: items => item.startsTerm = due ∧ Filled (!item.endsTerm) items

instance Filled.decidable : (due : Bool) → (items : List (Item ω)) → Decidable (Filled due items)
  | due, [] => inferInstanceAs (Decidable (due = false))
  | due, item :: items =>
    have := Filled.decidable (!item.endsTerm) items
    inferInstanceAs (Decidable (item.startsTerm = due ∧ Filled (!item.endsTerm) items))

mutual

theorem IsExpression.filled_append {xs : List (Item ω)} (h : IsExpression xs)
    (rest : List (Item ω)) : Filled true (xs ++ rest) ↔ Filled false rest := by
  match h with
  | .term h => exact h.filled_append rest
  | .binary op hx hy =>
    rw [List.append_assoc, hx.filled_append, List.cons_append, Filled]
    exact (and_iff_right rfl).trans (hy.filled_append rest)

theorem IsTerm.filled_append {xs : List (Item ω)} (h : IsTerm xs) (rest : List (Item ω)) :
    Filled true (xs ++ rest) ↔ Filled false rest := by
  match h with
  | .operand x => exact and_iff_right rfl
  | .sign op h => exact (and_iff_right rfl).trans (h.filled_append rest)
  | .group opening closing h =>
    rw [List.cons_append, Filled, List.append_assoc]
    exact (and_iff_right rfl).trans ((h.filled_append _).trans (and_iff_right rfl))

end

theorem IsExpression.filled {xs : List (Item ω)} (h : IsExpression xs) : Filled true xs := by
  have hf := h.filled_append []
  rw [List.append_nil] at hf
  exact hf.mpr rfl

/-! ## From reading to sentences -/

/-- What has been read before an expression inside `depth` parentheses is empty or ends with an
opening parenthesis, itself in the place of a term. -/
def Begins : Nat → List (Item ω) → Prop
  | 0, read => read = []
  | depth + 1, read => ∃ outer current opening, read = outer ++ (current ++ [.opening opening]) ∧
      Begins depth outer ∧ ∀ t, IsTerm t → IsExpression (current ++ t)

def TermDue (depth : Nat) (read : List (Item ω)) : Prop :=
  ∃ outer current, read = outer ++ current ∧ Begins depth outer ∧
    ∀ t, IsTerm t → IsExpression (current ++ t)

def TermRead (depth : Nat) (read : List (Item ω)) : Prop :=
  ∃ outer current, read = outer ++ current ∧ Begins depth outer ∧ IsExpression current

section
variable {depth : Nat} {read : List (Item ω)}

theorem TermDue.start : TermDue 0 ([] : List (Item ω)) := ⟨[], [], rfl, rfl, fun _ h => .term h⟩

theorem TermDue.term (h : TermDue depth read) {t : List (Item ω)} (ht : IsTerm t) :
    TermRead depth (read ++ t) := by
  obtain ⟨outer, current, rfl, hb, hc⟩ := h
  exact ⟨outer, current ++ t, List.append_assoc .., hb, hc t ht⟩

theorem TermDue.sign (h : TermDue depth read) (op : Located UnaryOp) :
    TermDue depth (read ++ [.unary op]) := by
  obtain ⟨outer, current, rfl, hb, hc⟩ := h
  refine ⟨outer, current ++ [.unary op], List.append_assoc .., hb, fun t ht => ?_⟩
  rw [List.append_assoc]
  exact hc _ (.sign op ht)

theorem TermDue.opening (h : TermDue depth read) (span : Span) :
    TermDue (depth + 1) (read ++ [.opening span]) := by
  obtain ⟨outer, current, rfl, hb, hc⟩ := h
  refine ⟨_, [], (List.append_nil _).symm, ?_, fun t ht => .term ht⟩
  exact ⟨outer, current, span, List.append_assoc .., hb, hc⟩

theorem TermRead.binary (h : TermRead depth read) (op : Located BinaryOp) :
    TermDue depth (read ++ [.binary op]) := by
  obtain ⟨outer, current, rfl, hb, hc⟩ := h
  refine ⟨outer, current ++ [.binary op], List.append_assoc .., hb, fun t ht => ?_⟩
  rw [List.append_assoc]
  exact .binary op hc ht

theorem TermRead.closing (h : TermRead (depth + 1) read) (span : Span) :
    TermRead depth (read ++ [.closing span]) := by
  obtain ⟨-, inner, rfl, ⟨outer, current, opening, rfl, hb, hc⟩, hi⟩ := h
  have hg := TermDue.term ⟨outer, current, rfl, hb, hc⟩ (.group opening span hi)
  simpa only [List.append_assoc, List.cons_append, List.nil_append] using hg

theorem TermRead.isExpression (h : TermRead 0 read) : IsExpression read := by
  obtain ⟨outer, current, rfl, rfl, hc⟩ := h
  exact hc

end

def ReadUpTo (depth : Nat) (slot : Slot) (read : List (Item ω)) : Prop :=
  if slot = .operator then TermRead depth read else TermDue depth read

theorem ReadUpTo.termDue {depth : Nat} {slot : Slot} {read : List (Item ω)}
    (h : ReadUpTo depth slot read) (hs : slot ≠ .operator) : TermDue depth read := by
  rwa [ReadUpTo, if_neg hs] at h

theorem Reads.isExpression_append {depth : Nat} {slot : Slot} {items : List (Item ω)}
    (h : Reads depth slot items) (hf : Filled (slot ≠ .operator) items) {read : List (Item ω)}
    (hr : ReadUpTo depth slot read) : IsExpression (read ++ items) := by
  -- each item takes what has been read one step further; a slot that is filled as it asks for
  -- rules out the items that `Reads` lets through
  induction h generalizing read with
  | @nil slot h =>
    obtain rfl : slot = .operator := by simpa [Filled] using hf
    rw [List.append_nil]
    exact hr.isExpression
  | operand x h rest ih =>
    rw [List.append_cons]
    exact ih hf.2 ((hr.termDue h).term (.operand x))
  | unary op h rest ih =>
    rw [List.append_cons]
    exact ih hf.2 ((hr.termDue h).sign op)
  | @binary depth slot items op rest ih =>
    obtain rfl : slot = .operator := by simpa [Item.startsTerm] using hf.1.symm
    rw [List.append_cons]
    exact ih hf.2 (hr.binary op)
  | opening span h rest ih =>
    rw [List.append_cons]
    exact ih hf.2 ((hr.termDue h).opening span)
  | @closing depth slot items span h rest ih =>
    obtain rfl : slot = .operator := by simpa [Item.startsTerm] using hf.1.symm
    rw [List.append_cons]
    exact ih hf.2 (hr.closing span)

theorem Reads.isExpression_iff {items : List (Item ω)} (h : Reads 0 .operand items) :
    IsExpression items ↔ Filled true items :=
  ⟨IsExpression.filled, fun hf => h.isExpression_append hf TermDue.start⟩

/-! ## Missing operands -/

namespace Item

/-- An operator has an operand to its right, and a binary one also to its left. -/
def Beside (x y : Item ω) : Prop :=
  (x.isOperator → y.startsTerm) ∧ (y.isBinary → x.endsTerm)

@[simp] def slotAfter : Item ω → Slot
  | .operand _ | .closing _ => .operator
  | .opening _ => .first
  | .unary _ | .binary _ => .operand

end Item

structure OperatorsApply (items : List (Item ω)) : Prop where
  first : ∀ x ∈ items.head?, x.isBinary = false
  inner : items.IsChain Item.Beside
  last : ∀ x ∈ items.getLast?, x.isOperator = false

def Slot.Admits : Slot → Item ω → Prop
  | .operator, item => item.startsTerm = false
  | .first, .closing _ => False
  | _, _ => True

theorem Item.slotAfter_ne_operator (x : Item ω) :
    decide (x.slotAfter ≠ .operator) = !x.endsTerm := by
  cases x <;> rfl

theorem Item.beside_iff {x y : Item ω} (h : x.slotAfter.Admits y) :
    x.Beside y ↔ y.startsTerm = !x.endsTerm := by
  cases x <;> cases y <;> simp_all [Item.Beside, Slot.Admits]

namespace Reads

variable {depth : Nat} {slot : Slot} {x : Item ω} {items : List (Item ω)}

theorem admits (h : Reads depth slot (x :: items)) : slot.Admits x := by
  cases h <;> cases slot <;> simp_all [Slot.Admits]

theorem tail (h : Reads depth slot (x :: items)) : ∃ depth', Reads depth' x.slotAfter items := by
  cases h with
  | operand x h rest => exact ⟨_, rest⟩
  | unary op h rest => exact ⟨_, rest⟩
  | binary op rest => exact ⟨_, rest⟩
  | opening span h rest => exact ⟨_, rest⟩
  | closing span h rest => exact ⟨_, rest⟩

theorem filled_iff (h : Reads depth x.slotAfter items) :
    Filled (!x.endsTerm) items ↔
      (x :: items).IsChain Item.Beside ∧ ∀ y ∈ (x :: items).getLast?, y.isOperator = false := by
  induction items generalizing depth x with
  | nil =>
    cases h with
    | nil h => cases x <;> simp_all [Filled]
  | cons y items ih =>
    obtain ⟨depth', hrest⟩ := h.tail
    rw [Filled, List.isChain_cons_cons, List.getLast?_cons_cons, and_assoc,
      Item.beside_iff h.admits]
    exact and_congr_right fun _ => ih hrest

theorem startsTerm_eq (h : Reads 0 slot (x :: items)) : x.startsTerm = !x.isBinary := by
  cases h <;> rfl

/-- What is read is a sentence as soon as no operand is missing. -/
theorem isExpression_iff_operatorsApply (h : Reads 0 .operand items) (hne : items ≠ []) :
    IsExpression items ↔ OperatorsApply items := by
  obtain ⟨x, rest, rfl⟩ := List.exists_cons_of_ne_nil hne
  obtain ⟨depth, hrest⟩ := h.tail
  rw [h.isExpression_iff, Filled, hrest.filled_iff, h.startsTerm_eq]
  constructor
  · rintro ⟨hx, hi, hl⟩
    exact ⟨by simpa using hx, hi, hl⟩
  · rintro ⟨hx, hi, hl⟩
    exact ⟨by simpa using hx, hi, hl⟩

end Reads

end MatrixScript
