import MatrixScript.Proofs.MalformedExpressions
import MatrixScript.Proofs.Relocation

/-!
# Reordered items

Putting items into postfix order does not look at the operands, nor at the spans: it can be done
before other operands are put for them or everything is moved, or after.
-/

namespace MatrixScript

section
variable {ω υ : Type} (g : Nat → Nat) (f : ω → υ)

def Operator.relocate : Operator → Operator
  | .binary op => .binary (op.relocate g)
  | .unary op => .unary (op.relocate g)

def Item.relocate : Item ω → Item υ
  | .operand x => .operand (f x)
  | .binary op => .binary (op.relocate g)
  | .unary op => .unary (op.relocate g)
  | .opening span => .opening (span.relocate g)
  | .closing span => .closing (span.relocate g)

def Postfix.relocate : Postfix ω → Postfix υ
  | .operand x => .operand (f x)
  | .operator op => .operator (op.relocate g)

theorem precedes_relocate (waiting next : Operator) :
    (waiting.relocate g).precedes (next.relocate g) = waiting.precedes next := by
  cases waiting <;> cases next <;> rfl

theorem release_relocate (waiting : List Operator) (rest : List (Postfix ω)) :
    release (waiting.map (Operator.relocate g)) (rest.map (Postfix.relocate g f)) =
      (release waiting rest).map (Postfix.relocate g f) := by
  simp [release, Postfix.relocate, Function.comp_def]

def relocateOrder (p : Except Span (List (Postfix ω))) : Except Span (List (Postfix υ)) :=
  (List.map (Postfix.relocate g f) <$> p).mapError (Span.relocate g)

theorem map_relocateOrder {h : List (Postfix υ) → List (Postfix υ)}
    {h' : List (Postfix ω) → List (Postfix ω)}
    (hh : ∀ xs, h (xs.map (Postfix.relocate g f)) = (h' xs).map (Postfix.relocate g f))
    (p : Except Span (List (Postfix ω))) :
    h <$> relocateOrder g f p = relocateOrder g f (h' <$> p) := by
  cases p with
  | ok xs => exact congrArg Except.ok (hh xs)
  | error s => rfl

theorem toPostfixFrom_relocate (waiting : List Operator) (groups : List (Span × List Operator))
    (items : List (Item ω)) :
    toPostfixFrom (waiting.map (Operator.relocate g))
        (groups.map fun group => (group.1.relocate g, group.2.map (Operator.relocate g)))
        (items.map (Item.relocate g f)) =
      relocateOrder g f (toPostfixFrom waiting groups items) := by
  induction items generalizing waiting groups with
  | nil =>
    cases groups with
    | nil => exact congrArg Except.ok (release_relocate g f waiting [])
    | cons group groups => rfl
  | cons item items ih =>
    rw [List.map_cons]
    cases item with
    | operand x =>
      rw [Item.relocate, toPostfixFrom, toPostfixFrom, ih]
      exact map_relocateOrder g f (fun xs => rfl) _
    | unary op => exact ih (.unary op :: waiting) groups
    | binary op =>
      have hprecedes : (fun w : Operator => w.precedes (.binary (op.relocate g))) ∘
          Operator.relocate g = (·.precedes (.binary op)) :=
        funext fun w => precedes_relocate g w (.binary op)
      have ih := ih (.binary op :: waiting.dropWhile (·.precedes (.binary op))) groups
      rw [List.map_cons] at ih
      rw [Item.relocate, toPostfixFrom, toPostfixFrom, List.takeWhile_map, List.dropWhile_map,
        hprecedes, ← Operator.relocate, ih]
      exact map_relocateOrder g f (release_relocate g f _) _
    | opening span => exact ih [] ((span, waiting) :: groups)
    | closing span =>
      cases groups with
      | nil => rfl
      | cons group groups =>
        rw [Item.relocate, toPostfixFrom, List.map_cons, toPostfixFrom, ih]
        exact map_relocateOrder g f (release_relocate g f _) _

theorem toPostfix_relocate (items : List (Item ω)) :
    toPostfix (items.map (Item.relocate g f)) = relocateOrder g f (toPostfix items) :=
  toPostfixFrom_relocate g f [] [] items

end

/-! ## Only the operands -/

section
variable {ω υ : Type} (f : ω → υ)

def Postfix.map : Postfix ω → Postfix υ
  | .operand x => .operand (f x)
  | .operator op => .operator op

theorem toPostfix_map (items : List (Item ω)) :
    toPostfix (items.map (Item.map f)) = List.map (Postfix.map f) <$> toPostfix items := by
  have hitem : Item.map f = Item.relocate id f := by
    funext item
    cases item <;> rfl
  have hpostfix : Postfix.map f = Postfix.relocate id f := by
    funext p
    cases p with
    | operand x => rfl
    | operator op => cases op <;> rfl
  rw [hitem, hpostfix, toPostfix_relocate]
  cases toPostfix items <;> rfl

theorem mem_of_toPostfix {items : List (Item ω)} {ordered : List (Postfix ω)}
    (h : toPostfix items = .ok ordered) {x : ω} (hx : .operand x ∈ ordered) : .operand x ∈ items := by
  obtain ⟨item, hi, hp⟩ := List.mem_filterMap.mp ((perm_toPostfix h).mem_iff.mp hx)
  cases item <;> cases hp
  exact hi

end

end MatrixScript
