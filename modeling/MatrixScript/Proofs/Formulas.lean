import MatrixScript.Proofs.ExpressionTrees

/-!
# Formulas and how they are written

A formula has no parentheses: its operators apply where they stand in the tree.  It can be written
with many or few parentheses, but not with fewer than its operators call for.  However it is
written, `toPostfix` finds its postorder again.
-/

namespace MatrixScript

inductive Formula (ω : Type)
  | operand (x : ω)
  | sign (op : Located UnaryOp) (f : Formula ω)
  | binary (op : Located BinaryOp) (l r : Formula ω)

namespace Formula

variable {ω : Type}

def postorder : Formula ω → List (Postfix ω)
  | .operand x => [.operand x]
  | .sign op f => f.postorder ++ [.operator (.unary op)]
  | .binary op l r => l.postorder ++ (r.postorder ++ [.operator (.binary op)])

/-- The items spell out the formula where a part that binds less tightly than `p` needs parentheses.
Operators of one precedence group to the left, and parentheses may stand around any part. -/
inductive Written : Precedence → Formula ω → List (Item ω) → Prop
  | operand (p : Precedence) (x : ω) : Written p (.operand x) [.operand x]
  | sign (p : Precedence) (op : Located UnaryOp) {f : Formula ω} {items : List (Item ω)} :
    Written .sign f items → Written p (.sign op f) (.unary op :: items)
  | binary {p q : Precedence} {op : Located BinaryOp} {l r : Formula ω} {ls rs : List (Item ω)}
    (hp : p ≤ op.value.precedence) (hq : op.value.precedence < q) :
    Written op.value.precedence l ls → Written q r rs →
      Written p (.binary op l r) (ls ++ .binary op :: rs)
  | group (p : Precedence) (opening closing : Span) {f : Formula ω} {items : List (Item ω)} :
    Written .any f items → Written p f (.opening opening :: (items ++ [.closing closing]))

end Formula

/-! ## Parentheses as part of the tree -/

namespace Tree

variable {ω : Type}

def formula : Tree ω → Formula ω
  | .operand x => .operand x
  | .sign op t => .sign op t.formula
  | .binary op l r => .binary op l.formula r.formula
  | .group _ _ t => t.formula

theorem postorder_formula (t : Tree ω) : t.formula.postorder = t.postorder := by
  induction t with
  | operand x => rfl
  | sign op t ih => simp [formula, Formula.postorder, postorder, ih]
  | binary op l r ihl ihr => simp [formula, Formula.postorder, postorder, ihl, ihr]
  | group opening closing t ih => simp [formula, postorder, ih]

end Tree

theorem Precedence.le_sign (p : Precedence) : p ≤ .sign := by
  cases p <;> decide

namespace Formula

variable {ω : Type} {f : Formula ω} {p : Precedence} {items : List (Item ω)}

/-- What is written has its parentheses where a tree needs them. -/
theorem Written.exists_tree (h : f.Written p items) :
    ∃ t : Tree ω, t.Grouped ∧ p ≤ t.strength ∧ t.formula = f ∧ t.items = items := by
  induction h with
  | operand p x => exact ⟨.operand x, trivial, p.le_sign, rfl, rfl⟩
  | sign p op _ ih =>
    obtain ⟨t, ht, hs, rfl, rfl⟩ := ih
    exact ⟨.sign op t, ⟨hs, ht⟩, p.le_sign, rfl, rfl⟩
  | @binary p q op _ _ _ _ hp hq _ _ ihl ihr =>
    obtain ⟨l, hl, hls, rfl, rfl⟩ := ihl
    obtain ⟨r, hr, hrs, rfl, rfl⟩ := ihr
    have hright : op.value.precedence < r.strength := Nat.lt_of_lt_of_le hq hrs
    exact ⟨.binary op l r, ⟨hls, hright, hl, hr⟩, hp, rfl, rfl⟩
  | group p opening closing _ ih =>
    obtain ⟨t, ht, -, rfl, rfl⟩ := ih
    exact ⟨.group opening closing t, ht, p.le_sign, rfl, rfl⟩

/-- The postfix order of a written formula is its postorder, whatever parentheses it is written
with. -/
theorem toPostfix_written (h : f.Written p items) : toPostfix items = .ok f.postorder := by
  obtain ⟨t, ht, -, rfl, rfl⟩ := h.exists_tree
  rw [t.postorder_formula]
  exact Tree.toPostfix_items ht

/-- `-(1 - (2)) * 3 - +(-4)`: needed and redundant parentheses, and a sign in each place where one
can stand. -/
theorem toPostfix_written_of_signs :
    let s : Span := ⟨0, 0⟩
    let sub : Located BinaryOp := ⟨.sub, s⟩
    let mul : Located BinaryOp := ⟨.mul, s⟩
    let pos : Located UnaryOp := ⟨.pos, s⟩
    let neg : Located UnaryOp := ⟨.neg, s⟩
    let f : Formula Nat :=
      .binary sub
        (.binary mul (.sign neg (.binary sub (.operand 1) (.operand 2))) (.operand 3))
        (.sign pos (.sign neg (.operand 4)))
    let items : List (Item Nat) :=
      [.unary neg, .opening s, .operand 1, .binary sub, .opening s, .operand 2, .closing s,
        .closing s, .binary mul, .operand 3, .binary sub, .unary pos, .opening s, .unary neg,
        .operand 4, .closing s]
    f.Written .any items ∧ toPostfix items = .ok f.postorder := by
  intro s sub mul pos neg f items
  have hinner : (Formula.binary sub (.operand 1) (.operand 2)).Written .any
      ([.operand 1] ++ .binary sub :: [.opening s, .operand 2, .closing s]) :=
    .binary (q := .factor) (by decide) (by decide) (.operand _ 1) (.group _ s s (.operand _ 2))
  have hleft : (Formula.binary mul (.sign neg (.binary sub (.operand 1) (.operand 2)))
      (.operand 3)).Written .term _ :=
    .binary (q := .sign) (by decide) (by decide) (.sign _ neg (.group _ s s hinner)) (.operand _ 3)
  have hright : (Formula.sign pos (.sign neg (.operand 4))).Written .factor _ :=
    .sign _ pos (.group _ s s (.sign _ neg (.operand _ 4)))
  have hwritten : f.Written .any items :=
    @Written.binary _ .any .factor sub _ _ _ _ (by decide) (by decide) hleft hright
  exact ⟨hwritten, toPostfix_written hwritten⟩

end Formula

end MatrixScript
