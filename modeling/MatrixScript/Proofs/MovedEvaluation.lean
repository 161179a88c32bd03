import MatrixScript.Proofs.AbsorbedSigns
import Mathlib.Order.Monotone.Defs
import Mathlib.Order.Lattice
import Mathlib.Order.Defs.LinearOrder

/-!
# Evaluation at another place

A program that is moved does the same, and the spans of its faults move with it.  The same holds if
other items are put for those of its expressions, as long as they evaluate alike.
-/

namespace MatrixScript

open Eval

/-! ## Moved faults -/

namespace Eval

section
variable {α β : Type} (g : Nat → Nat)

def relocated (p : Eval α) : Eval α := EStateM.adaptExcept (Fault.relocate g) p

theorem relocated_pure (x : α) : relocated g (pure x) = pure x := rfl

theorem relocated_of_ok {p : Eval α} {s s' : Session} {x : α} (h : p s = .ok x s') :
    relocated g p s = .ok x s' := by
  unfold relocated EStateM.adaptExcept
  rw [h]

theorem relocated_of_error {p : Eval α} {s s' : Session} {fault : Fault}
    (h : p s = .error fault s') : relocated g p s = .error (fault.relocate g) s' := by
  unfold relocated EStateM.adaptExcept
  rw [h]

theorem relocated_fail (cause : Cause) (spans : List Span) :
    relocated g (fail cause spans : Eval α) = fail cause (spans.map (Span.relocate g)) := rfl

theorem relocated_bind (p : Eval α) (f : α → Eval β) :
    relocated g (p >>= f) = relocated g p >>= fun x => relocated g (f x) := by
  funext s
  change EStateM.adaptExcept _ (EStateM.bind p f) s =
    EStateM.bind (EStateM.adaptExcept _ p) (fun x => EStateM.adaptExcept _ (f x)) s
  unfold EStateM.adaptExcept EStateM.bind
  dsimp only
  cases p s <;> rfl

def Action.relocate (a : Action) : Action := ⟨relocated g a.value, a.span.relocate g⟩

end

end Eval

/-! ## Steps of the evaluation -/

section
variable {g : Nat → Nat} (hg : Monotone g)
include hg

theorem Span.relocate_hull (s t : Span) : (s.hull t).relocate g = (s.relocate g).hull (t.relocate g) := by
  simp only [Span.hull, Span.relocate, hg.map_min, hg.map_max]

theorem Span.relocate_foldl_hull (s : Span) (spans : List Span) :
    (spans.foldl Span.hull s).relocate g =
      (spans.map (Span.relocate g)).foldl Span.hull (s.relocate g) := by
  induction spans generalizing s with
  | nil => rfl
  | cons t spans ih => rw [List.foldl_cons, ih, Span.relocate_hull hg, List.map_cons, List.foldl_cons]

theorem InvocationError.locate_relocate (callee : Span) (args : List Span)
    (error : InvocationError) :
    error.locate (callee.relocate g) (args.map (Span.relocate g)) =
      (error.locate callee args).relocate g := by
  have harg (i : Nat) : (args.map (Span.relocate g)).getD i (callee.relocate g) =
      (args.getD i callee).relocate g := by simp
  unfold InvocationError.locate
  simp only [harg, ← Span.relocate_foldl_hull hg]
  split <;> rfl

namespace Eval

theorem located_relocate {α : Type} (callee : Span) (args : List Span)
    (p : EStateM InvocationError Session α) :
    located (callee.relocate g) (args.map (Span.relocate g)) p =
      relocated g (located callee args p) := by
  funext s
  unfold located relocated EStateM.adaptExcept
  cases p s with
  | ok x s' => rfl
  | error e s' => exact congrArg (EStateM.Result.error · s') (e.locate_relocate hg callee args)

theorem sign_relocate (op : Located UnaryOp) (x : Value) (span : Span) :
    sign (op.relocate g) x (span.relocate g) = relocated g (sign op x span) := by
  obtain ⟨op, place⟩ := op
  unfold sign
  cases op with
  | pos => cases x.neg? <;> rfl
  | neg =>
    cases x.neg? with
    | none => rfl
    | some result => exact located_relocate hg place [span] _

end Eval

end

namespace Eval

theorem resolve_relocate (g : Nat → Nat) (s : Located String) :
    resolve (s.relocate g) = relocated g (resolve s) := by
  unfold resolve
  rw [relocated_bind]
  refine bind_congr fun session => ?_
  rw [Located.relocate]
  cases session.vars.get? s.value with
  | some value => rfl
  | none =>
    dsimp only
    split <;> rfl

theorem elementOf_relocate (g : Nat → Nat) (span : Span) (value : Value) :
    elementOf (span.relocate g) value = relocated g (elementOf span value) := by
  unfold elementOf
  cases value.toFraction? <;> rfl

theorem matrixOfRows_relocate (g : Nat → Nat) (whole : Span) (rowSpans : List Span) (rows : Grid) :
    matrixOfRows (whole.relocate g) (rowSpans.map (Span.relocate g)) rows =
      relocated g (matrixOfRows whole rowSpans rows) := by
  unfold matrixOfRows
  cases RatMatrix.ofRows rows with
  | ok m => rfl
  | error e =>
    cases e with
    | ragged row expected found =>
      dsimp only
      rw [relocated_fail, List.map_append, List.map_take, List.map_take, List.map_drop]
    | _ => rfl

end Eval

/-! ## Expressions as actions -/

namespace Eval

variable {g : Nat → Nat}

theorem runPostfix_relocate (hg : Monotone g) (whole : Span) (ordered : List (Postfix Action))
    (stack : List (Located Value)) :
    runPostfix (whole.relocate g) (ordered.map (Postfix.relocate g (Action.relocate g)))
        (stack.map (Located.relocate g)) =
      relocated g (runPostfix whole ordered stack) := by
  induction ordered generalizing stack with
  | nil =>
    match stack with
    | [v] => rfl
    | [] | _ :: _ :: _ => rfl
  | cons p rest ih =>
    match p, stack with
    | .operand action, stack =>
      rw [runPostfix, relocated_bind]
      exact bind_congr fun v => ih (⟨v, action.span⟩ :: stack)
    | .operator (.binary op), y :: x :: stack =>
      rw [runPostfix, relocated_bind, ← located_relocate hg]
      exact bind_congr fun v => ih (⟨v, x.span.through y.span⟩ :: stack)
    | .operator (.unary op), x :: stack =>
      rw [runPostfix, relocated_bind, ← sign_relocate hg]
      exact bind_congr fun v => ih (⟨v, op.span.through x.span⟩ :: stack)
    | .operator (.binary _), [] | .operator (.binary _), [_] | .operator (.unary _), [] => rfl

theorem runItems_relocate (hg : Monotone g) (whole : Span) (items : List (Item Action)) :
    runItems (whole.relocate g) (items.map (Item.relocate g (Action.relocate g))) =
      relocated g (runItems whole items) := by
  rw [Tree.runItems_eq, Tree.runItems_eq, toPostfix_relocate]
  cases toPostfix items with
  | ok ordered => exact runPostfix_relocate hg whole ordered []
  | error parenthesis => rfl

end Eval

/-! ## Programs -/

theorem Eval.script_eq {text : String} {script : List Statement} (h : parseScript text = .ok script) :
    Eval.script text = statements script := by
  rw [Eval.script, h]
  rfl

/-- Other items for those of an expression: they evaluate alike, and stand for a bare name if those
do. -/
structure Keeps (f : List (Item Operand) → List (Item Operand)) : Prop where
  runs : ∀ {items}, Reads 0 .operand items → ∀ whole,
    runItems whole (actions (f items)) = runItems whole (actions items)
  symbol : ∀ {items s}, f items = [.operand (.symbol s)] ↔ items = [.operand (.symbol s)]

theorem keeps_id : Keeps id := ⟨fun _ _ => rfl, Iff.rfl⟩

theorem keeps_absorb : Keeps absorb := ⟨runItems_absorb, absorb_eq_symbol⟩

section
variable {g : Nat → Nat} {f : List (Item Operand) → List (Item Operand)}

theorem reads_map_recastItem {depth : Nat} {slot : Slot} {items : List (Item Operand)}
    (h : Reads depth slot items) : Reads depth slot (items.map (recastItem g f)) := by
  induction h with
  | nil hs => exact .nil hs
  | operand x hs _ ih => exact .operand _ hs ih
  | unary op hs _ ih => exact .unary _ hs ih
  | binary op _ ih => exact .binary _ ih
  | opening span hs _ ih => exact .opening _ hs ih
  | closing span hs _ ih => exact .closing _ hs ih

theorem map_recastItem_eq_symbol {items : List (Item Operand)} {s : Located String}
    (h : items.map (recastItem g f) = [.operand (.symbol s)]) :
    ∃ s', items = [.operand (.symbol s')] := by
  obtain ⟨item, rfl, hitem⟩ := List.map_eq_singleton_iff.mp h
  cases item with
  | operand x =>
    match x with
    | .symbol s' => exact ⟨s', rfl⟩
    | .number n => cases hitem
    | .call ⟨name, args, span, parens⟩ => cases hitem
    | .matrix ⟨rows, span⟩ => cases hitem
  | binary op => cases hitem
  | unary op => cases hitem
  | opening span => cases hitem
  | closing span => cases hitem

theorem declaredName?_recast (hf : Keeps f) (declares : Bool) (items : List (Item Operand))
    (span : Span) :
    declaredName? declares ⟨f (items.map (recastItem g f)), span.relocate g⟩ =
      declaredName? declares ⟨items, span⟩ := by
  by_cases h : ∃ s, items = [.operand (.symbol s)]
  · obtain ⟨s, rfl⟩ := h
    have hmap : f ([.operand (.symbol s)].map (recastItem g f)) =
        [.operand (.symbol (s.relocate g))] := hf.symbol.mpr rfl
    rw [hmap]
    cases declares <;> rfl
  · have hnone : ∀ s, f (items.map (recastItem g f)) ≠ [.operand (.symbol s)] := by
      intro s hs
      exact h (map_recastItem_eq_symbol (hf.symbol.mp hs))
    rw [declaredName?_eq_none hnone, declaredName?_eq_none fun s hs => h ⟨s, hs⟩]

def Operand.Moves (g : Nat → Nat) (f : List (Item Operand) → List (Item Operand)) (x : Operand) :
    Prop :=
  operand (recastOperand g f x) = relocated g (operand x)

theorem actions_recast {items : List (Item Operand)}
    (hx : ∀ x, .operand x ∈ items → x.Moves g f) :
    actions (items.map (recastItem g f)) =
      (actions items).map (Item.relocate g (Action.relocate g)) := by
  rw [actions_eq_map, actions_eq_map, List.map_map, List.map_map]
  refine List.map_congr_left fun item hi => ?_
  cases item with
  | operand x =>
    have haction : (⟨operand (recastOperand g f x), (recastOperand g f x).span⟩ : Action) =
        ⟨relocated g (operand x), x.span.relocate g⟩ := by rw [hx x hi, span_recastOperand]
    exact congrArg Item.operand haction
  | binary op => rfl
  | unary op => rfl
  | opening span => rfl
  | closing span => rfl

variable (hg : Monotone g) (hf : Keeps f)
include hg hf

theorem runItems_recast {e : Expression} (hr : Reads 0 .operand e.items)
    (hx : ∀ x, .operand x ∈ e.items → x.Moves g f) :
    runItems (e.span.relocate g) (actions (f (e.items.map (recastItem g f)))) =
      relocated g (runItems e.span (actions e.items)) := by
  rw [hf.runs (reads_map_recastItem hr), actions_recast hx, runItems_relocate hg]

def Expression.Moves (g : Nat → Nat) (f : List (Item Operand) → List (Item Operand))
    (e : Expression) : Prop :=
  Reads 0 .operand e.items ∧ ∀ x, .operand x ∈ e.items → x.Moves g f

theorem expression_recast_of {e : Expression} (he : Expression.Moves g f e) :
    expression (recast g f e) = relocated g (expression e) := by
  have hrun := runItems_recast hg hf he.1 he.2
  obtain ⟨items, span⟩ := e
  rw [recast, recastItems_eq_map, expression, expression]
  exact hrun

theorem argument_recast_of (declares : Bool) {e : Expression} (he : Expression.Moves g f e) :
    argument declares (recast g f e) = relocated g (argument declares e) := by
  have hrun := runItems_recast hg hf he.1 he.2
  obtain ⟨items, span⟩ := e
  rw [recast, recastItems_eq_map, argument, argument, declaredName?_recast hf]
  cases declaredName? declares ⟨items, span⟩ with
  | some name => rfl
  | none => exact hrun

theorem arguments_recast_of (declares : Bool) {es : List Expression}
    (hes : ∀ e ∈ es, Expression.Moves g f e) :
    arguments declares (es.map (recast g f)) = relocated g (arguments declares es) := by
  induction es generalizing declares with
  | nil => rfl
  | cons e es ih =>
    obtain ⟨he, hes⟩ := List.forall_mem_cons.mp hes
    rw [List.map_cons, arguments, arguments, argument_recast_of hg hf declares he, ih false hes]
    simp only [relocated_bind, relocated_pure]

theorem matrixElements_recast_of {es : List Expression}
    (hes : ∀ e ∈ es, Expression.Moves g f e) :
    matrixElements (es.map (recast g f)) = relocated g (matrixElements es) := by
  induction es with
  | nil => rfl
  | cons e es ih =>
    obtain ⟨he, hes⟩ := List.forall_mem_cons.mp hes
    rw [List.map_cons, matrixElements, matrixElements, expression_recast_of hg hf he, ih hes]
    simp only [relocated_bind, relocated_pure, span_recast, elementOf_relocate]

theorem matrixRows_recast_of {rows : List Row}
    (hrows : ∀ row ∈ rows, ∀ e ∈ row.items, Expression.Moves g f e) :
    matrixRows (rows.map (recastRow g f)) = relocated g (matrixRows rows) := by
  induction rows with
  | nil => rfl
  | cons row rows ih =>
    obtain ⟨hrow, hrows⟩ := List.forall_mem_cons.mp hrows
    have hrow : matrixRow (recastRow g f row) = relocated g (matrixRow row) := by
      obtain ⟨elements, span⟩ := row
      rw [recastRow, recastAll_eq_map, matrixRow, matrixRow]
      exact matrixElements_recast_of hg hf hrow
    rw [List.map_cons, matrixRows, matrixRows, hrow, ih hrows]
    simp only [relocated_bind, relocated_pure]

theorem operand_recast (x : Operand) (hx : x.Sound) : x.Moves g f := by
  revert hx
  refine Operand.induct (P := fun x => x.Sound → x.Moves g f) (fun x ih hx => ?_) x
  have hinner : ∀ e ∈ x.inner, Expression.Moves g f e := fun e he =>
    ⟨(hx.inner e he).legible.reads, fun y hy => ih e he y hy ((hx.inner e he).operand hy)⟩
  match x with
  | .number n => rfl
  | .symbol s => exact resolve_relocate g s
  | .call ⟨name, args, span, parens⟩ =>
    rw [Operand.Moves, recastOperand, recastCall, recastAll_eq_map, operand, operand, call, call,
      relocated_bind]
    have hinner : ∀ e ∈ args, Expression.Moves g f e := hinner
    have hargs := arguments_recast_of hg hf (name.value == "init") hinner
    rw [Located.relocate, hargs]
    refine bind_congr fun values => ?_
    rw [← located_relocate hg, List.map_map, List.map_map]
    refine congrArg (located _ · _) (List.map_congr_left fun e _ => span_recast g f e)
  | .matrix ⟨rows, span⟩ =>
    have hrows : ∀ row ∈ rows, ∀ e ∈ row.items, Expression.Moves g f e := fun row hrow e he =>
      hinner e (List.mem_flatMap.mpr ⟨row, hrow, he⟩)
    rw [Operand.Moves, recastOperand, recastMatrix, recastRows_eq_map, operand, operand, matrix,
      matrix, relocated_bind, matrixRows_recast_of hg hf hrows]
    refine bind_congr fun values => ?_
    rw [← matrixOfRows_relocate, List.map_map, List.map_map]
    refine congrArg (matrixOfRows _ · _) (List.map_congr_left fun row _ => ?_)
    obtain ⟨elements, span⟩ := row
    rfl

theorem expression_recast {e : Expression} (he : Sound e) :
    expression (recast g f e) = relocated g (expression e) :=
  expression_recast_of hg hf ⟨he.legible.reads, fun x hx => operand_recast hg hf x (he.operand hx)⟩

/-! ## Statements -/

theorem statement_recast {s : Statement} (hs : s.Legible) :
    statement (s.recast g f) = relocated g (statement s) := by
  cases s with
  | declaration d =>
    have hvalue : Sound d.value := hs.inside
    rw [Statement.recast, statement, statement, declaration, declaration, relocated_bind,
      expression_recast hg hf hvalue]
    refine bind_congr fun v => ?_
    rw [relocated_bind, ← located_relocate hg]
    rfl
  | call c =>
    have hsound : (Operand.call c).Sound := ⟨hs.name, hs.inside⟩
    exact operand_recast hg hf (.call c) hsound

theorem statementsFrom_recast (last : Value) {script : List Statement}
    (hs : ∀ s ∈ script, s.Legible) :
    statementsFrom last (script.map (Statement.recast g f)) =
      relocated g (statementsFrom last script) := by
  induction script generalizing last with
  | nil => rfl
  | cons s script ih =>
    obtain ⟨hfirst, hrest⟩ := List.forall_mem_cons.mp hs
    rw [List.map_cons, statementsFrom, statementsFrom, relocated_bind,
      statement_recast hg hf hfirst]
    exact bind_congr fun v => ih v hrest

end

end MatrixScript
