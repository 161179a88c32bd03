import MatrixScript.Proofs.ProgramShapes

/-!
# Programs at another place

`recast g f` moves every offset in a program by `g` and puts other items for the items of its
expressions.  `relocate g` only moves, and `reshape f` is a `recast` that moves everything to one
place.
-/

namespace MatrixScript

/-! ## Spans, tokens and faults -/

section
variable (g : Nat → Nat)

def Span.relocate (s : Span) : Span := ⟨g s.start, g s.stop⟩

def Located.relocate {α : Type} (x : Located α) : Located α := ⟨x.value, x.span.relocate g⟩

def Token.relocate (t : Token) : Token := ⟨t.kind, t.lexeme, t.span.relocate g⟩

def Fault.relocate (fault : Fault) : Fault := ⟨fault.cause, fault.spans.map (Span.relocate g)⟩

theorem Span.relocate_through (s t : Span) :
    (s.through t).relocate g = (s.relocate g).through (t.relocate g) := rfl

end

/-! ## Expressions at every depth -/

section
variable (g : Nat → Nat) (f : List (Item Operand) → List (Item Operand))

mutual

def recastOperand : Operand → Operand
  | .number n => .number (n.relocate g)
  | .symbol s => .symbol (s.relocate g)
  | .call c => .call (recastCall c)
  | .matrix m => .matrix (recastMatrix m)

def recastCall : Application Operand → Application Operand
  | ⟨name, args, span, parens⟩ =>
    ⟨name.relocate g, recastAll args, span.relocate g, parens.relocate g⟩

def recastMatrix : Bracketed (Bracketed (Infix Operand)) → Bracketed (Bracketed (Infix Operand))
  | ⟨rows, span⟩ => ⟨recastRows rows, span.relocate g⟩

def recastRows : List (Bracketed (Infix Operand)) → List (Bracketed (Infix Operand))
  | [] => []
  | row :: rows => recastRow row :: recastRows rows

def recastRow : Bracketed (Infix Operand) → Bracketed (Infix Operand)
  | ⟨elements, span⟩ => ⟨recastAll elements, span.relocate g⟩

def recastAll : List (Infix Operand) → List (Infix Operand)
  | [] => []
  | e :: es => recast e :: recastAll es

def recast : Infix Operand → Infix Operand
  | ⟨items, span⟩ => ⟨f (recastItems items), span.relocate g⟩

def recastItems : List (Item Operand) → List (Item Operand)
  | [] => []
  | item :: items => recastItem item :: recastItems items

def recastItem : Item Operand → Item Operand
  | .operand x => .operand (recastOperand x)
  | .binary op => .binary (op.relocate g)
  | .unary op => .unary (op.relocate g)
  | .opening span => .opening (span.relocate g)
  | .closing span => .closing (span.relocate g)

end

theorem recastAll_eq_map (es : List Expression) : recastAll g f es = es.map (recast g f) := by
  induction es with
  | nil => rfl
  | cons e es ih => rw [recastAll, ih, List.map_cons]

theorem recastRows_eq_map (rows : List Row) : recastRows g f rows = rows.map (recastRow g f) := by
  induction rows with
  | nil => rfl
  | cons row rows ih => rw [recastRows, ih, List.map_cons]

theorem recastItems_eq_map (items : List (Item Operand)) :
    recastItems g f items = items.map (recastItem g f) := by
  induction items with
  | nil => rfl
  | cons item items ih => rw [recastItems, ih, List.map_cons]

@[simp] theorem span_recastOperand (x : Operand) :
    (recastOperand g f x).span = x.span.relocate g := by
  cases x with
  | number n => rfl
  | symbol s => rfl
  | call c => cases c; rfl
  | matrix m => cases m; rfl

@[simp] theorem span_recast (e : Expression) : (recast g f e).span = e.span.relocate g := by
  cases e
  rfl

@[simp] theorem span_recastItem (item : Item Operand) :
    (recastItem g f item).span = item.span.relocate g := by
  cases item with
  | operand x => exact span_recastOperand g f x
  | binary op => rfl
  | unary op => rfl
  | opening span => rfl
  | closing span => rfl

def Statement.recast : Statement → Statement
  | .declaration d =>
    .declaration ⟨d.name.relocate g, MatrixScript.recast g f d.value, d.span.relocate g⟩
  | .call c => .call (recastCall g f c)

end

/-! ## One level at a time -/

namespace Operand

section
variable (g : Nat → Nat) (E : Expression → Expression)

/-- Moves the spans of the operand, and puts other expressions for those right inside it. -/
def remake : Operand → Operand
  | .number n => .number (n.relocate g)
  | .symbol s => .symbol (s.relocate g)
  | .call c => .call ⟨c.name.relocate g, c.args.map E, c.span.relocate g, c.parens.relocate g⟩
  | .matrix m =>
    .matrix ⟨m.items.map fun row => ⟨row.items.map E, row.span.relocate g⟩, m.span.relocate g⟩

variable {g E}

theorem remake_congr {E' : Expression → Expression} {x : Operand} (h : ∀ e ∈ x.inner, E e = E' e) :
    x.remake g E = x.remake g E' := by
  cases x with
  | number n => rfl
  | symbol s => rfl
  | call c =>
    have hargs : c.args.map E = c.args.map E' := List.map_congr_left h
    rw [remake, remake, hargs]
  | matrix m =>
    have hrows : ∀ row ∈ m.items, (⟨row.items.map E, row.span.relocate g⟩ : Row) =
        ⟨row.items.map E', row.span.relocate g⟩ := by
      intro row hrow
      rw [List.map_congr_left fun e he => h e (List.mem_flatMap.mpr ⟨row, hrow, he⟩)]
    rw [remake, remake, List.map_congr_left hrows]

theorem remake_remake {g' : Nat → Nat} {E' : Expression → Expression} (x : Operand) :
    (x.remake g' E').remake g E = x.remake (g ∘ g') (E ∘ E') := by
  cases x <;> simp [remake, Located.relocate, Span.relocate, Function.comp_def]

theorem remake_id (x : Operand) : x.remake id id = x := by
  cases x <;> simp [remake, Located.relocate, Span.relocate]

end

theorem recastOperand_eq_remake (g : Nat → Nat) (f : List (Item Operand) → List (Item Operand))
    (x : Operand) : recastOperand g f x = x.remake g (recast g f) := by
  cases x with
  | number n => rfl
  | symbol s => rfl
  | call c =>
    obtain ⟨name, args, span, parens⟩ := c
    rw [recastOperand, recastCall, recastAll_eq_map, remake]
  | matrix m =>
    obtain ⟨rows, span⟩ := m
    rw [recastOperand, recastMatrix, recastRows_eq_map, remake]
    refine congrArg (Operand.matrix ⟨·, _⟩) (List.map_congr_left fun row _ => ?_)
    obtain ⟨elements, span⟩ := row
    rw [recastRow, recastAll_eq_map]

theorem reshapeOperand_eq_remake (f : List (Item Operand) → List (Item Operand)) (x : Operand) :
    reshapeOperand f x = x.remake (fun _ => 0) (reshape f) := by
  cases x with
  | number n => rfl
  | symbol s => rfl
  | call c =>
    obtain ⟨name, args, span, parens⟩ := c
    rw [reshapeOperand, reshapeCall, reshapeAll_eq_map]
    rfl
  | matrix m =>
    obtain ⟨rows, span⟩ := m
    rw [reshapeOperand, reshapeMatrix, reshapeRows_eq_map, remake]
    refine congrArg (Operand.matrix ⟨·, _⟩) (List.map_congr_left fun row _ => ?_)
    obtain ⟨elements, span⟩ := row
    rw [reshapeRow, reshapeAll_eq_map]
    rfl

end Operand

/-! ## Only the place -/

abbrev relocate (g : Nat → Nat) : Expression → Expression := recast g id

abbrev Statement.relocate (g : Nat → Nat) : Statement → Statement := Statement.recast g id

section
variable (g g' : Nat → Nat) (f : List (Item Operand) → List (Item Operand))

theorem recast_relocate_of {e : Expression}
    (h : ∀ x, .operand x ∈ e.items →
      recastOperand g f (recastOperand g' id x) = recastOperand (g ∘ g') f x) :
    recast g f (relocate g' e) = recast (g ∘ g') f e := by
  obtain ⟨items, span⟩ := e
  simp only [relocate, recast, recastItems_eq_map, id, List.map_map]
  refine congrArg (Infix.mk · _) (congrArg f (List.map_congr_left fun item hi => ?_))
  cases item with
  | operand x => exact congrArg Item.operand (h x hi)
  | binary op => rfl
  | unary op => rfl
  | opening span => rfl
  | closing span => rfl

theorem recastOperand_relocate (x : Operand) :
    recastOperand g f (recastOperand g' id x) = recastOperand (g ∘ g') f x := by
  refine Operand.induct (P := fun x => recastOperand g f (recastOperand g' id x) =
    recastOperand (g ∘ g') f x) (fun x hx => ?_) x
  beta_reduce
  rw [Operand.recastOperand_eq_remake, Operand.recastOperand_eq_remake,
    Operand.recastOperand_eq_remake, Operand.remake_remake]
  exact Operand.remake_congr fun e he => recast_relocate_of g g' f (hx e he)

theorem recast_relocate (e : Expression) : recast g f (relocate g' e) = recast (g ∘ g') f e :=
  recast_relocate_of g g' f fun x _ => recastOperand_relocate g g' f x

theorem relocate_id_of {e : Expression} (h : ∀ x, .operand x ∈ e.items → recastOperand id id x = x) :
    relocate id e = e := by
  obtain ⟨items, span⟩ := e
  have hitems : ∀ item ∈ items, recastItem id id item = item := by
    intro item hi
    cases item with
    | operand x => exact congrArg Item.operand (h x hi)
    | binary op => rfl
    | unary op => rfl
    | opening span => rfl
    | closing span => rfl
  rw [relocate, recast, recastItems_eq_map, List.map_congr_left hitems, List.map_id']
  rfl

theorem recastOperand_id (x : Operand) : recastOperand id id x = x := by
  refine Operand.induct (P := fun x => recastOperand id id x = x) (fun x hx => ?_) x
  beta_reduce
  rw [x.recastOperand_eq_remake, Operand.remake_congr fun e he => relocate_id_of (hx e he)]
  exact x.remake_id

theorem recastItem_id (item : Item Operand) : recastItem id id item = item := by
  cases item with
  | operand x => exact congrArg Item.operand (recastOperand_id x)
  | binary op => rfl
  | unary op => rfl
  | opening span => rfl
  | closing span => rfl

theorem relocate_id (e : Expression) : relocate id e = e :=
  relocate_id_of fun x _ => recastOperand_id x

theorem reshape_eq_recast_of {e : Expression} (h : ∀ x, .operand x ∈ e.items →
    reshapeOperand f x = recastOperand (fun _ => 0) f x) :
    reshape f e = recast (fun _ => 0) f e := by
  obtain ⟨items, span⟩ := e
  rw [reshape, recast, reshapeItems_eq_map, recastItems_eq_map]
  refine congrArg (Infix.mk · _) (congrArg f (List.map_congr_left fun item hi => ?_))
  cases item with
  | operand x => exact congrArg Item.operand (h x hi)
  | binary op => rfl
  | unary op => rfl
  | opening span => rfl
  | closing span => rfl

theorem reshapeOperand_eq_recast (x : Operand) :
    reshapeOperand f x = recastOperand (fun _ => 0) f x := by
  refine Operand.induct (P := fun x => reshapeOperand f x = recastOperand (fun _ => 0) f x)
    (fun x hx => ?_) x
  beta_reduce
  rw [x.reshapeOperand_eq_remake, x.recastOperand_eq_remake]
  exact Operand.remake_congr fun e he => reshape_eq_recast_of f (hx e he)

theorem reshape_eq_recast (e : Expression) : reshape f e = recast (fun _ => 0) f e :=
  reshape_eq_recast_of f fun x _ => reshapeOperand_eq_recast f x

end

/-! ## Statements -/

theorem recastCall_eq (g : Nat → Nat) (f : List (Item Operand) → List (Item Operand)) (c : Call) :
    recastCall g f c =
      ⟨c.name.relocate g, c.args.map (recast g f), c.span.relocate g, c.parens.relocate g⟩ := by
  obtain ⟨name, args, span, parens⟩ := c
  rw [recastCall, recastAll_eq_map]

namespace Statement

theorem recast_relocate (g g' : Nat → Nat) (f : List (Item Operand) → List (Item Operand))
    (s : Statement) : (s.relocate g').recast g f = s.recast (g ∘ g') f := by
  cases s with
  | declaration d =>
    simp only [relocate, recast, MatrixScript.recast_relocate]
    rfl
  | call c =>
    have hcall := recastOperand_relocate g g' f (.call c)
    exact congrArg Statement.call (Operand.call.inj hcall)

theorem relocate_id (s : Statement) : s.relocate id = s := by
  cases s with
  | declaration d =>
    have hvalue : MatrixScript.recast id id d.value = d.value := MatrixScript.relocate_id d.value
    rw [relocate, recast, hvalue]
    rfl
  | call c => exact congrArg Statement.call (Operand.call.inj (recastOperand_id (.call c)))

theorem reshape_eq_recast (f : List (Item Operand) → List (Item Operand)) (s : Statement) :
    s.reshape f = s.recast (fun _ => 0) f := by
  cases s with
  | declaration d =>
    rw [reshape, recast, MatrixScript.reshape_eq_recast]
    rfl
  | call c => exact congrArg Statement.call (Operand.call.inj (reshapeOperand_eq_recast f (.call c)))

end Statement

end MatrixScript
