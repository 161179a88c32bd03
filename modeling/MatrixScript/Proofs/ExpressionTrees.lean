import MatrixScript.Postfix

/-!
# Expression trees

A tree holds its operators where they apply, and parentheses where they are written.  If it has
parentheses wherever the precedences call for them, `toPostfix` of its items is its postorder.
-/

namespace MatrixScript

inductive Tree (ω : Type)
  | operand (x : ω)
  | sign (op : Located UnaryOp) (t : Tree ω)
  | binary (op : Located BinaryOp) (l r : Tree ω)
  | group (opening closing : Span) (t : Tree ω)

theorem BinaryOp.precedence_lt_sign (op : BinaryOp) : op.precedence < .sign := by
  cases op <;> decide

namespace Tree

variable {ω υ : Type}

def map (f : ω → υ) : Tree ω → Tree υ
  | .operand x => .operand (f x)
  | .sign op t => .sign op (t.map f)
  | .binary op l r => .binary op (l.map f) (r.map f)
  | .group opening closing t => .group opening closing (t.map f)

/-- How tightly the parts of the tree hold together without parentheses around it. -/
def strength : Tree ω → Precedence
  | .binary op _ _ => op.value.precedence
  | .operand _ | .sign _ _ | .group _ _ _ => .sign

/-- Parentheses stand at least where the precedences, and the grouping to the left of operators of
one precedence, call for them. -/
def Grouped : Tree ω → Prop
  | .operand _ => True
  | .sign _ t => .sign ≤ t.strength ∧ t.Grouped
  | .binary op l r =>
    op.value.precedence ≤ l.strength ∧ op.value.precedence < r.strength ∧ l.Grouped ∧ r.Grouped
  | .group _ _ t => t.Grouped

def items : Tree ω → List (Item ω)
  | .operand x => [.operand x]
  | .sign op t => .unary op :: t.items
  | .binary op l r => l.items ++ .binary op :: r.items
  | .group opening closing t => .opening opening :: (t.items ++ [.closing closing])

def postorder : Tree ω → List (Postfix ω)
  | .operand x => [.operand x]
  | .sign op t => t.postorder ++ [.operator (.unary op)]
  | .binary op l r => l.postorder ++ (r.postorder ++ [.operator (.binary op)])
  | .group _ _ t => t.postorder

/-! ## Halfway through a tree -/

/-- The operators that still wait after the last item of the tree. -/
def waiting : Tree ω → List Operator
  | .operand _ | .group _ _ _ => []
  | .sign op t => t.waiting ++ [.unary op]
  | .binary op _ r => r.waiting ++ [.binary op]

/-- The part of the postorder that is out by then. -/
def emitted : Tree ω → List (Postfix ω)
  | .operand x => [.operand x]
  | .sign _ t => t.emitted
  | .binary _ l r => l.postorder ++ r.emitted
  | .group _ _ t => t.postorder

theorem emitted_append_release (t : Tree ω) (rest : List (Postfix ω)) :
    t.emitted ++ release t.waiting rest = t.postorder ++ rest := by
  induction t generalizing rest with
  | operand x => rfl
  | sign op t ih =>
    have h := ih (.operator (.unary op) :: rest)
    simpa [emitted, waiting, postorder, release] using h
  | binary op l r _ ih =>
    have h := ih (.operator (.binary op) :: rest)
    simpa [emitted, waiting, postorder, release] using h
  | group _ _ t => rfl

theorem strength_le_of_waiting {t : Tree ω} (h : t.Grouped) :
    ∀ w ∈ t.waiting, t.strength ≤ w.precedence := by
  induction t with
  | operand _ => intro w hw; cases hw
  | group _ _ _ => intro w hw; cases hw
  | sign op t ih =>
    intro w hw
    rcases List.mem_append.mp hw with hw | hw
    · exact Nat.le_trans h.1 (ih h.2 w hw)
    · cases List.mem_singleton.mp hw; exact Nat.le_refl _
  | binary op l r _ ih =>
    intro w hw
    obtain ⟨-, hr, -, hg⟩ := h
    rcases List.mem_append.mp hw with hw | hw
    · exact Nat.le_trans (Nat.le_of_lt hr) (ih hg w hw)
    · cases List.mem_singleton.mp hw; exact Nat.le_refl _

/-- No operator of the tree that is outside parentheses makes the operator on top go first. -/
def Rests (t : Tree ω) (stack : List Operator) : Prop :=
  .sign ≤ t.strength ∨ ∀ w ∈ stack.head?, w.precedence < t.strength

theorem rests_nil (t : Tree ω) : t.Rests [] := Or.inr (by simp)

section
variable {op : Located BinaryOp} {stack : List Operator} {t : Tree ω}

theorem takeWhile_precedes (ht : ∀ w ∈ t.waiting, op.value.precedence ≤ w.precedence)
    (hs : ∀ w ∈ stack.head?, w.precedence < op.value.precedence) :
    (t.waiting ++ stack).takeWhile (·.precedes (.binary op)) = t.waiting := by
  rw [List.takeWhile_append_of_pos fun w hw => by simpa using ht w hw]
  cases stack with
  | nil => simp
  | cons w stack =>
    have h : ¬ op.value.precedence ≤ w.precedence := Nat.not_le.mpr (hs w rfl)
    simp [h]

theorem dropWhile_precedes (ht : ∀ w ∈ t.waiting, op.value.precedence ≤ w.precedence)
    (hs : ∀ w ∈ stack.head?, w.precedence < op.value.precedence) :
    (t.waiting ++ stack).dropWhile (·.precedes (.binary op)) = stack := by
  rw [List.dropWhile_append_of_pos fun w hw => by simpa using ht w hw]
  cases stack with
  | nil => rfl
  | cons w stack =>
    have h : ¬ op.value.precedence ≤ w.precedence := Nat.not_le.mpr (hs w rfl)
    simp [h]

end

/-! ## Postfix order -/

/-- Reading a tree leaves the operators below it and the open groups as they were. -/
theorem toPostfixFrom_items {t : Tree ω} (h : t.Grouped) {stack : List Operator}
    (hs : t.Rests stack) (groups : List (Span × List Operator)) (rest : List (Item ω)) :
    toPostfixFrom stack groups (t.items ++ rest) =
      (t.emitted ++ ·) <$> toPostfixFrom (t.waiting ++ stack) groups rest := by
  induction t generalizing stack groups rest with
  | operand x => rfl
  | sign op t ih =>
    have hrest : t.Rests (.unary op :: stack) := Or.inl h.1
    have ht := ih h.2 hrest groups rest
    simpa [items, emitted, waiting, toPostfixFrom] using ht
  | binary op l r ihl ihr =>
    obtain ⟨hl, hr, hgl, hgr⟩ := h
    have hs : ∀ w ∈ stack.head?, w.precedence < op.value.precedence :=
      hs.resolve_left (Nat.not_le.mpr op.value.precedence_lt_sign)
    have hwait : ∀ w ∈ l.waiting, op.value.precedence ≤ w.precedence :=
      fun w hw => Nat.le_trans hl (strength_le_of_waiting hgl w hw)
    have hrests : l.Rests stack := Or.inr fun w hw => Nat.lt_of_lt_of_le (hs w hw) hl
    have hrestr : r.Rests (.binary op :: stack) := Or.inr fun w hw => by cases hw; exact hr
    -- the operators waiting in `l` come out when `op` is read, those below stay
    rw [items, List.append_assoc, List.cons_append, ihl hgl hrests, toPostfixFrom,
      takeWhile_precedes hwait hs, dropWhile_precedes hwait hs, ihr hgr hrestr]
    rw [waiting, List.append_assoc, List.singleton_append]
    cases toPostfixFrom (r.waiting ++ .binary op :: stack) groups rest with
    | error p => rfl
    | ok out =>
      have := emitted_append_release l (r.emitted ++ out)
      simpa [emitted, Functor.map, Except.map] using this
  | group opening closing t ih =>
    have ht := ih h (rests_nil t) ((opening, stack) :: groups) (.closing closing :: rest)
    simp only [items, emitted, waiting, List.cons_append, List.append_assoc, List.nil_append,
      toPostfixFrom]
    rw [ht, List.append_nil, toPostfixFrom]
    cases toPostfixFrom stack groups rest with
    | error p => rfl
    | ok out => exact congrArg Except.ok (emitted_append_release t out)

theorem toPostfix_items {t : Tree ω} (h : t.Grouped) : toPostfix t.items = .ok t.postorder := by
  have ht := toPostfixFrom_items h (rests_nil t) [] []
  rw [List.append_nil] at ht
  rw [toPostfix, ht, List.append_nil, toPostfixFrom]
  exact congrArg Except.ok ((emitted_append_release t []).trans (List.append_nil _))

end Tree

end MatrixScript
