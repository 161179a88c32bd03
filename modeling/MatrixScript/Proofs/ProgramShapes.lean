import MatrixScript.Proofs.LegiblePrograms

/-!
# Shapes of programs

`bare` forgets where a program was written.  `normal` also lets a minus sign that stands before a
number without a sign become part of it, which is how the parser reads the two side by side.
-/

namespace MatrixScript

/-! ## Induction over operands -/

namespace Operand

def inner : Operand → List Expression
  | .number _ | .symbol _ => []
  | .call c => c.args
  | .matrix m => m.items.flatMap (·.items)

section
variable {P : Operand → Prop}

/-- What holds of an operand if it holds of those inside. -/
def Inherits (P : Operand → Prop) : Prop :=
  ∀ x : Operand, (∀ e ∈ x.inner, ∀ y, .operand y ∈ e.items → P y) → P x

mutual

theorem induct (h : Inherits P) (x : Operand) : P x := by
  match x with
  | .number n => exact h _ (List.forall_mem_nil _)
  | .symbol s => exact h _ (List.forall_mem_nil _)
  | .call ⟨name, args, span, parens⟩ => exact h _ (induct_expressions h args)
  | .matrix ⟨rows, span⟩ =>
    refine h _ fun e he => ?_
    obtain ⟨row, hrow, he⟩ := List.mem_flatMap.mp he
    exact induct_rows h rows row hrow e he

theorem induct_rows (h : Inherits P) (rows : List (Bracketed (Infix Operand))) :
    ∀ row ∈ rows, ∀ e ∈ row.items, ∀ y, .operand y ∈ e.items → P y := by
  match rows with
  | [] => exact List.forall_mem_nil _
  | ⟨elements, span⟩ :: rows =>
    exact List.forall_mem_cons.mpr ⟨induct_expressions h elements, induct_rows h rows⟩

theorem induct_expressions (h : Inherits P) (es : List (Infix Operand)) :
    ∀ e ∈ es, ∀ y, .operand y ∈ e.items → P y := by
  match es with
  | [] => exact List.forall_mem_nil _
  | ⟨items, span⟩ :: es =>
    exact List.forall_mem_cons.mpr ⟨induct_items h items, induct_expressions h es⟩

theorem induct_items (h : Inherits P) (items : List (Item Operand)) :
    ∀ y, .operand y ∈ items → P y := by
  match items with
  | [] => intro y hy; cases hy
  | item :: items =>
    intro y hy
    rcases List.mem_cons.mp hy with hy | hy
    · exact induct_item h item y hy
    · exact induct_items h items y hy

theorem induct_item (h : Inherits P) (item : Item Operand) (y : Operand)
    (hy : .operand y = item) : P y := by
  match item with
  | .operand x => cases hy; exact induct h _

end

end

theorem mem_expressions {e : Expression} {x : Operand} :
    e ∈ x.expressions ↔ ∃ e' ∈ x.inner, e ∈ withSubexpressions e' := by
  cases x with
  | number n => simp [expressions, inner]
  | symbol s => simp [expressions, inner]
  | call c => exact mem_callExpressions
  | matrix m =>
    simp only [expressions, inner, mem_matrixExpressions, mem_rowExpressions, List.mem_flatMap]
    constructor
    · rintro ⟨row, hrow, element, helement, he⟩
      exact ⟨element, ⟨row, hrow, helement⟩, he⟩
    · rintro ⟨element, ⟨row, hrow, helement⟩, he⟩
      exact ⟨row, hrow, element, helement, he⟩

structure Sound (x : Operand) : Prop where
  regular : x.Regular
  inside : ∀ e ∈ x.expressions, Legible e

end Operand

def Sound (e : Expression) : Prop := ∀ e' ∈ withSubexpressions e, Legible e'

theorem Operand.Sound.inner {x : Operand} (h : x.Sound) : ∀ e ∈ x.inner, MatrixScript.Sound e :=
  fun e he e' he' => h.inside e' (mem_expressions.mpr ⟨e, he, he'⟩)

namespace Sound

variable {e : Expression}

theorem legible (h : Sound e) : Legible e := h e (mem_withSubexpressions.mpr (.inl rfl))

theorem operand (h : Sound e) {x : Operand} (hx : .operand x ∈ e.items) : x.Sound where
  regular := h.legible.regular x hx
  inside e' he' := h e' (mem_withSubexpressions.mpr (.inr ⟨x, hx, he'⟩))

end Sound

/-! ## Other items, no spans -/

def nowhere : Span := ⟨0, 0⟩

section
variable (f : List (Item Operand) → List (Item Operand))

mutual

def reshapeOperand : Operand → Operand
  | .number n => .number ⟨n.value, nowhere⟩
  | .symbol s => .symbol ⟨s.value, nowhere⟩
  | .call c => .call (reshapeCall c)
  | .matrix m => .matrix (reshapeMatrix m)

def reshapeCall : Application Operand → Application Operand
  | ⟨name, args, _, _⟩ => ⟨⟨name.value, nowhere⟩, reshapeAll args, nowhere, nowhere⟩

def reshapeMatrix : Bracketed (Bracketed (Infix Operand)) → Bracketed (Bracketed (Infix Operand))
  | ⟨rows, _⟩ => ⟨reshapeRows rows, nowhere⟩

def reshapeRows : List (Bracketed (Infix Operand)) → List (Bracketed (Infix Operand))
  | [] => []
  | row :: rows => reshapeRow row :: reshapeRows rows

def reshapeRow : Bracketed (Infix Operand) → Bracketed (Infix Operand)
  | ⟨elements, _⟩ => ⟨reshapeAll elements, nowhere⟩

def reshapeAll : List (Infix Operand) → List (Infix Operand)
  | [] => []
  | e :: es => reshape e :: reshapeAll es

/-- Leaves out the spans of an expression at any depth, and puts other items for its items. -/
def reshape : Infix Operand → Infix Operand
  | ⟨items, _⟩ => ⟨f (reshapeItems items), nowhere⟩

def reshapeItems : List (Item Operand) → List (Item Operand)
  | [] => []
  | item :: items => reshapeItem item :: reshapeItems items

def reshapeItem : Item Operand → Item Operand
  | .operand x => .operand (reshapeOperand x)
  | .binary op => .binary ⟨op.value, nowhere⟩
  | .unary op => .unary ⟨op.value, nowhere⟩
  | .opening _ => .opening nowhere
  | .closing _ => .closing nowhere

end

theorem reshapeAll_eq_map (es : List Expression) : reshapeAll f es = es.map (reshape f) := by
  induction es with
  | nil => rfl
  | cons e es ih => rw [reshapeAll, ih, List.map_cons]

theorem reshapeRows_eq_map (rows : List Row) : reshapeRows f rows = rows.map (reshapeRow f) := by
  induction rows with
  | nil => rfl
  | cons row rows ih => rw [reshapeRows, ih, List.map_cons]

theorem reshapeItems_eq_map (items : List (Item Operand)) :
    reshapeItems f items = items.map (reshapeItem f) := by
  induction items with
  | nil => rfl
  | cons item items ih => rw [reshapeItems, ih, List.map_cons]

def Statement.reshape : Statement → Statement
  | .declaration d => .declaration ⟨⟨d.name.value, nowhere⟩, MatrixScript.reshape f d.value, nowhere⟩
  | .call c => .call (reshapeCall f c)

end

/-! ## Signs of numbers -/

/-- A minus sign and a number that is not negative become one number, from left to right. -/
def fuse : List (Item Operand) → List (Item Operand)
  | [] => []
  | .unary ⟨.neg, span⟩ :: .operand (.number n) :: items =>
    if 0 ≤ n.value then .operand (.number ⟨-n.value, n.span⟩) :: fuse items
    else .unary ⟨.neg, span⟩ :: .operand (.number n) :: fuse items
  | item :: items => item :: fuse items

def startsUnsigned : List (Item Operand) → Bool
  | .operand (.number n) :: _ => 0 ≤ n.value
  | _ => false

theorem fuse_pair {sign : Located UnaryOp} (hs : sign.value = .neg) {n : Located Int64}
    (hn : 0 ≤ n.value) (items : List (Item Operand)) :
    fuse (.unary sign :: .operand (.number n) :: items) =
      .operand (.number ⟨-n.value, n.span⟩) :: fuse items := by
  obtain ⟨value, span⟩ := sign
  cases hs
  rw [fuse, if_pos hn]

def fuses : Item Operand → List (Item Operand) → Bool
  | .unary op, items => op.value = .neg && startsUnsigned items
  | .operand _, _ | .binary _, _ | .opening _, _ | .closing _, _ => false

theorem exists_of_fuses {op : Located UnaryOp} {items : List (Item Operand)}
    (h : fuses (.unary op) items = true) :
    op.value = .neg ∧ ∃ n rest, items = .operand (.number n) :: rest ∧ 0 ≤ n.value := by
  obtain ⟨hneg, hstarts⟩ : op.value = .neg ∧ startsUnsigned items = true := by simpa [fuses] using h
  unfold startsUnsigned at hstarts
  split at hstarts
  · next n rest => exact ⟨hneg, n, rest, rfl, of_decide_eq_true hstarts⟩
  · cases hstarts

theorem fuse_cons {item : Item Operand} {items : List (Item Operand)}
    (h : fuses item items = false) : fuse (item :: items) = item :: fuse items := by
  cases item with
  | operand x => rfl
  | binary op => rfl
  | opening span => rfl
  | closing span => rfl
  | unary sign =>
    obtain ⟨value, span⟩ := sign
    cases value with
    | pos => rfl
    | neg =>
      have hstarts : startsUnsigned items = false := by simpa [fuses] using h
      cases items with
      | nil => rfl
      | cons first rest =>
        cases first with
        | operand x =>
          cases x with
          | number n =>
            have hn : ¬ 0 ≤ n.value := by simpa [startsUnsigned] using hstarts
            rw [fuse, if_neg hn]
            rfl
          | symbol s => rfl
          | call c => rfl
          | matrix m => rfl
        | binary op => rfl
        | unary op => rfl
        | opening span => rfl
        | closing span => rfl

/-- Either the first item becomes part of the second one, or it stays. -/
theorem fuse_induct {P : List (Item Operand) → Prop} (nil : P [])
    (pair : ∀ sign n items, sign.value = .neg → 0 ≤ n.value → P items →
      P (.unary sign :: .operand (.number n) :: items))
    (cons : ∀ item items, fuses item items = false → P items → P (item :: items))
    (items : List (Item Operand)) : P items := by
  induction items using fuse.induct with
  | case1 => exact nil
  | case2 span n items hn ih => exact pair _ n items rfl hn ih
  | case3 span n items hn ih =>
    refine cons _ _ ?_ (cons _ _ rfl ih)
    simpa [fuses, startsUnsigned] using hn
  | case4 item items hpair ih =>
    refine cons item items (Bool.eq_false_iff.mpr fun hfuses => ?_) ih
    cases item with
    | unary sign =>
      obtain ⟨value, span⟩ := sign
      obtain ⟨hneg, n, rest, hitems, -⟩ := exists_of_fuses hfuses
      cases hneg
      exact hpair span n rest rfl hitems
    | operand | binary | opening | closing => cases hfuses

theorem fuses_reshape (f : List (Item Operand) → List (Item Operand)) (item : Item Operand)
    (items : List (Item Operand)) :
    fuses (reshapeItem f item) (items.map (reshapeItem f)) = fuses item items := by
  have hstarts : startsUnsigned (items.map (reshapeItem f)) = startsUnsigned items := by
    cases items with
    | nil => rfl
    | cons item items =>
      cases item with
      | operand x => cases x <;> rfl
      | binary | unary | opening | closing => rfl
  cases item with
  | unary op => rw [reshapeItem, fuses, fuses, hstarts]
  | operand | binary | opening | closing => rfl

theorem fuse_map (f : List (Item Operand) → List (Item Operand)) (items : List (Item Operand)) :
    fuse (items.map (reshapeItem f)) = (fuse items).map (reshapeItem f) := by
  induction items using fuse_induct with
  | nil => rfl
  | pair sign n items hneg hn ih =>
    have hpair := @fuse_pair ⟨sign.value, nowhere⟩ hneg ⟨n.value, nowhere⟩ hn
      (items.map (reshapeItem f))
    rw [fuse_pair hneg hn]
    exact hpair.trans (congrArg _ ih)
  | cons item items hfuses ih =>
    rw [fuse_cons hfuses, List.map_cons, List.map_cons,
      fuse_cons ((fuses_reshape f item items).trans hfuses), ih]

namespace Statement

/-- The statement up to spans. -/
def bare : Statement → Statement := reshape id

/-- The statement as it is read back, up to spans. -/
def normal : Statement → Statement := reshape fuse

end Statement

end MatrixScript
