import MatrixScript.Proofs.Grammar
import MatrixScript.Proofs.Moves
import MatrixScript.Proofs.ParserSteps
import MatrixScript.Proofs.Subexpressions

/-!
# What the parser reads

Every expression that the parser reads, at any depth, has its items in the order of the text, and
they are read as `Reads` says.  All spans, of the program as well as of a fault, are within the
text.
-/

namespace MatrixScript

open Cursor

variable {text : String}

/-! ## Spans in order -/

/-- Spans that run forward and follow each other between two offsets. -/
def InOrder : Nat → List Span → Nat → Prop
  | lo, [], hi => lo ≤ hi
  | lo, s :: spans, hi => lo ≤ s.start ∧ s.start ≤ s.stop ∧ InOrder s.stop spans hi

namespace InOrder

variable {lo hi : Nat} {s : Span} {spans : List Span}

theorem le (h : InOrder lo spans hi) : lo ≤ hi := by
  induction spans generalizing lo with
  | nil => exact h
  | cons s spans ih =>
    obtain ⟨hlo, hs, hrest⟩ := h
    exact Nat.le_trans hlo (Nat.le_trans hs (ih hrest))

theorem mono_left {lo' : Nat} (h : InOrder lo spans hi) (hlo : lo' ≤ lo) :
    InOrder lo' spans hi := by
  cases spans with
  | nil => exact Nat.le_trans hlo h
  | cons s spans => exact ⟨Nat.le_trans hlo h.1, h.2⟩

theorem getLastD (h : InOrder lo (s :: spans) hi) :
    InOrder s.start (s :: spans) (spans.getLastD s).stop ∧ (spans.getLastD s).stop ≤ hi := by
  induction spans generalizing lo s with
  | nil => exact ⟨⟨Nat.le_refl _, h.2.1, Nat.le_refl _⟩, h.2.2⟩
  | cons t spans ih =>
    obtain ⟨-, hs, ht, htt, hrest⟩ := h
    obtain ⟨⟨-, -, hlast⟩, hhi⟩ := ih ⟨ht, htt, hrest⟩
    rw [List.getLastD_cons]
    exact ⟨⟨Nat.le_refl _, hs, ht, htt, hlast⟩, hhi⟩

theorem append {xs ys : List Span} (h : InOrder lo (xs ++ ys) hi) :
    ∃ mid, InOrder lo xs mid ∧ InOrder mid ys hi := by
  induction xs generalizing lo with
  | nil => exact ⟨lo, Nat.le_refl _, h⟩
  | cons s xs ih =>
    obtain ⟨hlo, hs, hrest⟩ := h
    obtain ⟨mid, hx, hy⟩ := ih hrest
    exact ⟨mid, ⟨hlo, hs, hx⟩, hy⟩

theorem sublist {spans' : List Span} (h : InOrder lo spans hi) (hs : spans'.Sublist spans) :
    InOrder lo spans' hi := by
  induction hs generalizing lo with
  | slnil => exact h
  | cons s _ ih => exact (ih h.2.2).mono_left (Nat.le_trans h.1 h.2.1)
  | cons_cons s _ ih => exact ⟨h.1, h.2.1, ih h.2.2⟩

end InOrder

/-! ## Expressions as read -/

structure WellRead (text : String) (e : Expression) : Prop where
  reads : Reads 0 .operand e.items
  ne_nil : e.items ≠ []
  order : InOrder e.span.start (e.items.map Item.span) e.span.stop
  within : ∀ s ∈ e.ownSpans, s.Within text

namespace Parse

def ExpressionRead (text : String) (c : Cursor) (e : Expression) (c' : Cursor) : Prop :=
  Passes text c e.span c' ∧ ∀ e' ∈ withSubexpressions e, WellRead text e'

structure OperandRead (text : String) (c : Cursor) (x : Operand) (c' : Cursor) : Prop where
  passes : Passes text c x.span c'
  within : ∀ s ∈ x.ownSpans, s.Within text
  inside : ∀ e ∈ x.expressions, WellRead text e

structure CallRead (text : String) (c : Cursor) (x : Call) (c' : Cursor) : Prop where
  passes : Passes text c x.span c'
  name : x.name.span.Within text
  parens : x.parens.Within text
  inside : ∀ e ∈ callExpressions x, WellRead text e

/-- Items that are read with `depth` parentheses open and `slot` the first of them. -/
structure ItemsRead (text : String) (depth : Nat) (slot : Slot) (c : Cursor)
    (items : List (Item Operand)) (c' : Cursor) : Prop where
  moves : Moves text c c'
  reads : Reads depth slot items
  order : InOrder c.pos (items.map Item.span) c'.pos
  within : ∀ item ∈ items, ∀ s ∈ item.ownSpans, s.Within text
  inside : ∀ e ∈ itemsExpressions items, WellRead text e

/-! ## Literals and brackets -/

section
variable {c : Cursor}

theorem outcome_numeral (h : c.Placed text) :
    Outcome text numeral c fun n c' => Passes text c n.span c' := by
  refine ends_numeral_of ((outcome_acceptJoined h .sub .int).mono fun sign c₁ hsign => ?_)
  refine (outcome_token (hsign.moves h).placed .int).mono fun t c₂ ht => ?_
  have hliteral : Passes text c (literal sign t).2 c₂ := by
    rcases hsign with ⟨rfl, rfl⟩ | ⟨minus, rfl, hminus⟩
    · exact ht
    · exact hminus.through ht
  refine ⟨fun u hu _ => ?_, fun _ => List.forall_mem_singleton.mpr hliteral.within, fun _ => hliteral⟩
  exact List.forall_mem_cons.mpr
    ⟨ht.within, List.forall_mem_singleton.mpr (ht.placed.within_current hu)⟩

theorem outcome_name (h : c.Placed text) :
    Outcome text name c fun s c' => Passes text c s.span c' := by
  unfold name
  rw [outcome_bind]
  exact outcome_token h .name

theorem outcome_bracketed {α : Type} {item : Parse α} {R : α → Prop}
    (hitem : ∀ c, c.Placed text → Outcome text item c fun x c' => Moves text c c' ∧ R x)
    (h : c.Placed text) :
    Outcome text (bracketed item) c fun xs c' =>
      Passes text c xs.span c' ∧ ∀ x ∈ xs.items, R x := by
  unfold bracketed
  rw [outcome_bind]
  refine (outcome_token h .openSquare).mono fun opening c₁ hopening => ?_
  rw [outcome_bind]
  refine (outcome_accept hopening.placed .closeSquare).mono fun t c₂ ht => ?_
  rcases ht with ⟨rfl, rfl⟩ | ⟨closing, rfl, hclosing⟩
  · dsimp only
    rw [outcome_bind, outcome_bound, outcome_bind]
    refine (outcome_commaSeparated hitem _ hopening.placed).mono fun xs c₃ ⟨hxs, hR⟩ => ?_
    rw [outcome_bind]
    refine (outcome_accept hxs.placed .closeSquare).mono fun t c₄ ht => ?_
    rcases ht with ⟨rfl, rfl⟩ | ⟨closing, rfl, hclosing⟩
    · dsimp only
      rw [outcome_bind, outcome_get, outcome_fail]
      exact List.forall_mem_cons.mpr
        ⟨hopening.within, List.forall_mem_singleton.mpr hxs.placed.within_span⟩
    · exact ⟨(hopening.before hxs).through hclosing, hR⟩
  · exact ⟨hopening.through hclosing, List.forall_mem_nil _⟩

end

/-! ## Calls and matrix literals -/

section
variable {nested : Ending → Parse Expression} {c : Cursor}

def Reader (text : String) (nested : Ending → Parse Expression) : Prop :=
  ∀ ends c, c.Placed text → Outcome text (nested ends) c (ExpressionRead text c)

theorem Reader.argument (hn : Reader text nested) (ends : Ending) (c : Cursor)
    (h : c.Placed text) : Outcome text (nested ends) c fun e c' =>
      Moves text c c' ∧ ∀ e' ∈ withSubexpressions e, WellRead text e' :=
  (hn ends c h).mono fun _ _ he => ⟨he.1.moves, he.2⟩

theorem outcome_callOf (hn : Reader text nested) {callee : Located String} {c₀ : Cursor}
    (h : Passes text c₀ callee.span c) :
    Outcome text (callOf nested callee) c (CallRead text c₀) := by
  unfold callOf
  rw [outcome_bind]
  refine (outcome_token h.placed .openParen).mono fun opening c₁ hopening => ?_
  have hname := h.before hopening.moves
  rw [outcome_bind]
  refine (outcome_accept hopening.placed .closeParen).mono fun t c₂ ht => ?_
  rcases ht with ⟨rfl, rfl⟩ | ⟨closing, rfl, hclosing⟩
  · dsimp only
    rw [outcome_bind, outcome_bound, outcome_bind]
    refine (outcome_commaSeparated (hn.argument .argument) _ hopening.placed).mono
      fun args c₃ ⟨hargs, hall⟩ => ?_
    rw [outcome_bind]
    refine (outcome_accept hargs.placed .closeParen).mono fun t c₄ ht => ?_
    rcases ht with ⟨rfl, rfl⟩ | ⟨closing, rfl, hclosing⟩
    · exact outcome_fail.mpr (List.forall_mem_singleton.mpr hopening.within)
    · refine ⟨(hname.before hargs).through hclosing, h.within,
        ((hopening.before hargs).through hclosing).within, fun e he => ?_⟩
      obtain ⟨arg, harg, he⟩ := mem_callExpressions.mp he
      exact hall arg harg e he
  · refine ⟨hname.through hclosing, h.within, (hopening.through hclosing).within, fun e he => ?_⟩
    obtain ⟨arg, harg, -⟩ := mem_callExpressions.mp he
    cases harg

theorem outcome_rowOf (hn : Reader text nested) (h : c.Placed text) :
    Outcome text (rowOf nested) c fun row c' =>
      Moves text c c' ∧ row.span.Within text ∧ ∀ e ∈ rowExpressions row, WellRead text e := by
  unfold rowOf
  rw [outcome_attempt, outcome_bind, outcome_peekKind]
  split
  · refine (outcome_bracketed (hn.argument .element) h).mono fun row c' ⟨hrow, hall⟩ => ?_
    refine ⟨hrow.moves, hrow.within, fun e he => ?_⟩
    obtain ⟨element, hmem, he⟩ := mem_rowExpressions.mp he
    exact hall element hmem e he
  · exact outcome_failHere h _

theorem outcome_matrixOf (hn : Reader text nested) (h : c.Placed text) :
    Outcome text (matrixOf nested) c fun m c' => OperandRead text c (.matrix m) c' := by
  unfold matrixOf
  rw [outcome_attempt]
  refine (outcome_bracketed (fun c h => outcome_rowOf hn h) h).mono fun m c' ⟨hm, hall⟩ => ?_
  refine ⟨hm, List.forall_mem_cons.mpr ⟨hm.within, ?_⟩, fun e he => ?_⟩
  · exact List.forall_mem_map.mpr fun row hrow => (hall row hrow).1
  · rw [Operand.expressions, mem_matrixExpressions] at he
    obtain ⟨row, hrow, he⟩ := he
    exact (hall row hrow).2 e he

theorem CallRead.operandRead {c' : Cursor} {x : Call} (h : CallRead text c x c') :
    OperandRead text c (.call x) c' where
  passes := h.passes
  within := by
    simp only [Operand.ownSpans, List.forall_mem_cons]
    exact ⟨h.name, h.passes.within, h.parens, List.forall_mem_nil _⟩
  inside := h.inside

theorem outcome_operandOf (hn : Reader text nested) (h : c.Placed text) :
    Outcome text (operandOf nested) c (OperandRead text c) := by
  have hnumber : Outcome text (.number <$> numeral) c (OperandRead text c) :=
    outcome_map.mpr ((outcome_numeral h).mono fun n c' hnum =>
      ⟨hnum, List.forall_mem_singleton.mpr hnum.within, List.forall_mem_nil _⟩)
  unfold operandOf
  rw [outcome_bind, outcome_peekKind]
  split
  · exact hnumber
  · exact hnumber
  · rw [outcome_bind]
    refine (outcome_name h).mono fun symbol c₁ hsymbol => ?_
    rw [outcome_bind, outcome_peekKind]
    split
    · exact outcome_map.mpr ((outcome_callOf hn hsymbol).mono fun x c' hx => hx.operandRead)
    · exact ⟨hsymbol, List.forall_mem_singleton.mpr hsymbol.within, List.forall_mem_nil _⟩
  · exact outcome_map.mpr (outcome_matrixOf hn h)

end

/-! ## Items -/

/-- What is known about the expression so far when a move is made. -/
def Move.Allowed (text : String) (groups : List Span) (slot : Slot) : Move → Prop
  | .stop => groups = []
  | .refuse _ spans => ∀ s ∈ spans, s.Within text
  | .operand | .opening | .unary _ => slot ≠ .operator
  | .closing => groups ≠ [] ∧ slot ≠ .first
  | .binary _ => True

section
variable {groups : List Span} {c : Cursor}

theorem Move.Refused.within {cause : Cause} {spans : List Span}
    (hg : ∀ s ∈ groups, s.Within text) (h : c.Placed text)
    (hspans : Move.Refused groups c c.peek? cause spans) : ∀ s ∈ spans, s.Within text := by
  cases hspans with
  | unclosed hgroup => exact List.forall_mem_singleton.mpr (hg _ hgroup)
  | comma hgroup ht =>
    exact List.forall_mem_cons.mpr ⟨hg _ hgroup, List.forall_mem_singleton.mpr (h.within_peek ht)⟩
  | missingSemicolon ht =>
    exact List.forall_mem_singleton.mpr (h.within_previous (h.within_peek ht))
  | unopened ht | emptyGroup ht | nestedMatrix ht | missingOperator ht | unexpected _ ht =>
    exact List.forall_mem_singleton.mpr (h.within_peek ht)

theorem Move.allowed_ofCursor (hg : ∀ s ∈ groups, s.Within text) (h : c.Placed text)
    (ends : Ending) (slot : Slot) :
    (Move.ofCursor ends groups slot c).Allowed text groups slot := by
  generalize hm : Move.ofCursor ends groups slot c = move
  cases Move.chosen_of_eq hm with
  | stop hgroups => exact hgroups
  | refuse hspans => exact hspans.within hg h
  | operand ht hslot => exact hslot
  | opening ht hslot => exact hslot
  | closing ht hslot hkind hgroups => exact ⟨hgroups, hslot⟩
  | unary ht hslot => exact hslot
  | binary => trivial

end

theorem ItemsRead.cons {depth depth' : Nat} {slot slot' : Slot} {c c₁ c₂ : Cursor}
    {item : Item Operand} {items : List (Item Operand)}
    (hrest : ItemsRead text depth' slot' c₁ items c₂) (hitem : Passes text c item.span c₁)
    (hreads : Reads depth slot (item :: items)) (hw : ∀ s ∈ item.ownSpans, s.Within text)
    (hi : ∀ e ∈ itemExpressions item, WellRead text e) :
    ItemsRead text depth slot c (item :: items) c₂ where
  moves := hitem.moves.trans hrest.moves
  reads := hreads
  order := ⟨hitem.start, hitem.within.le, hrest.order.mono_left hitem.stop⟩
  within := List.forall_mem_cons.mpr ⟨hw, hrest.within⟩
  inside := List.forall_mem_append.mpr ⟨hi, hrest.inside⟩

section
variable {nested : Ending → Parse Expression} {c : Cursor}

/-- An item that is one token, and the items after it. -/
theorem outcome_mark (make : Span → Item Operand) (p : Span → Parse (List (Item Operand)))
    {depth depth' : Nat} {slot slot' : Slot} (h : c.Placed text)
    (hmake : ∀ s, (make s).span = s ∧ (make s).ownSpans = [s] ∧ itemExpressions (make s) = [])
    (hp : ∀ s c₁, s.Within text → c₁.Placed text →
      Outcome text (p s) c₁ (ItemsRead text depth' slot' c₁))
    (hreads : ∀ s items, Reads depth' slot' items → Reads depth slot (make s :: items)) :
    Outcome text (do let t ← next; return make t.span :: (← p t.span)) c
      (ItemsRead text depth slot c) := by
  rw [outcome_bind]
  refine (outcome_next h).mono fun t c₁ ht => ?_
  obtain ⟨hspan, howns, hinside⟩ := hmake t.span
  rw [outcome_bind]
  refine (hp t.span c₁ ht.within ht.placed).mono fun items c₂ hitems => ?_
  refine hitems.cons (hspan.symm ▸ ht) (hreads _ _ hitems.reads) ?_ ?_
  · rw [howns]
    exact List.forall_mem_singleton.mpr ht.within
  · rw [hinside]
    exact List.forall_mem_nil _

theorem outcome_itemsOf (hn : Reader text nested) (ends : Ending) {fuel : Nat}
    {groups : List Span} {slot : Slot} (hg : ∀ s ∈ groups, s.Within text)
    (hslot : slot = .first → groups ≠ []) (h : c.Placed text) :
    Outcome text (itemsOf nested ends fuel groups slot) c
      (ItemsRead text groups.length slot c) := by
  induction fuel generalizing groups slot c with
  | zero => exact outcome_failHere h _
  | succ fuel ih =>
    have hmove := Move.allowed_ofCursor hg h ends slot
    unfold itemsOf
    rw [outcome_bind, outcome_get]
    cases hm : Move.ofCursor ends groups slot c with
    | stop =>
      rw [hm] at hmove
      -- no group is open, so the last item was no opening parenthesis
      obtain rfl : groups = [] := hmove
      exact ⟨h.moves, .nil fun hs => hslot hs rfl, Nat.le_refl _, List.forall_mem_nil _,
        List.forall_mem_nil _⟩
    | refuse cause spans => rw [hm] at hmove; exact hmove
    | operand =>
      rw [hm] at hmove
      dsimp only
      rw [outcome_bind]
      refine (outcome_operandOf hn h).mono fun x c₁ hx => ?_
      rw [outcome_bind]
      refine (ih hg (fun hs => by cases hs) hx.passes.placed).mono fun items c₂ hitems => ?_
      exact hitems.cons hx.passes (.operand x hmove hitems.reads) hx.within hx.inside
    | opening =>
      rw [hm] at hmove
      exact outcome_mark .opening (fun s => itemsOf nested ends fuel (s :: groups) .first) h
        (fun s => ⟨rfl, rfl, rfl⟩)
        (fun s c₁ hs hc => ih (List.forall_mem_cons.mpr ⟨hs, hg⟩) (fun _ => List.cons_ne_nil _ _) hc)
        fun s items => .opening s hmove
    | closing =>
      rw [hm] at hmove
      obtain ⟨hne, hfirst⟩ := hmove
      obtain ⟨group, groups, rfl⟩ := List.exists_cons_of_ne_nil hne
      exact outcome_mark .closing (fun _ => itemsOf nested ends fuel groups .operator) h
        (fun s => ⟨rfl, rfl, rfl⟩)
        (fun s c₁ hs hc => ih (List.forall_mem_cons.mp hg).2 (fun hs => by cases hs) hc)
        fun s items => .closing s hfirst
    | unary op =>
      rw [hm] at hmove
      exact outcome_mark (.unary ⟨op, ·⟩) (fun _ => itemsOf nested ends fuel groups .operand) h
        (fun s => ⟨rfl, rfl, rfl⟩) (fun s c₁ hs hc => ih hg (fun hs => by cases hs) hc)
        fun s items => .unary ⟨op, s⟩ hmove
    | binary op =>
      exact outcome_mark (.binary ⟨op, ·⟩) (fun _ => itemsOf nested ends fuel groups .operand) h
        (fun s => ⟨rfl, rfl, rfl⟩) (fun s c₁ hs hc => ih hg (fun hs => by cases hs) hc)
        fun s items => .binary ⟨op, s⟩

/-! ## Expressions -/

theorem outcome_expressionOf {p : Parse (List (Item Operand))}
    (hp : Outcome text p c (ItemsRead text 0 .operand c)) :
    Outcome text (expressionOf p) c (ExpressionRead text c) := by
  unfold expressionOf
  rw [outcome_bind]
  refine hp.mono fun items c' hitems => ?_
  cases items with
  | nil => exact outcome_failHere hitems.moves.placed _
  | cons first rest =>
    have hitem : ∀ item ∈ first :: rest, item.span.Within text := fun item hmem =>
      hitems.within item hmem item.span item.span_mem_ownSpans
    obtain ⟨horder, hstop⟩ := hitems.order.getLastD
    rw [List.getLastD_map] at horder hstop
    have hspan : (first.span.through (rest.getLastD first).span).Within text :=
      ⟨(hitem first List.mem_cons_self).start, (hitem _ List.getLastD_mem_cons).stop, horder.le⟩
    have hread : WellRead text ⟨first :: rest, first.span.through (rest.getLastD first).span⟩ :=
      { reads := hitems.reads
        ne_nil := List.cons_ne_nil _ _
        order := horder
        within := List.forall_mem_cons.mpr ⟨hspan, fun s hs => by
          obtain ⟨item, hmem, hs⟩ := List.mem_flatMap.mp hs
          exact hitems.within item hmem s hs⟩ }
    exact ⟨⟨hitems.moves.placed, hspan, hitems.order.1, hstop⟩,
      List.forall_mem_cons.mpr ⟨hread, hitems.inside⟩⟩

theorem reader_expressionAt (depth : Nat) : Reader text (expressionAt depth) := by
  induction depth with
  | zero => exact fun ends c h => outcome_failHere h _
  | succ depth ih =>
    intro ends c h
    unfold expressionAt
    rw [outcome_bind, outcome_bound]
    exact outcome_expressionOf
      (outcome_itemsOf ih ends (List.forall_mem_nil _) (fun hs => by cases hs) h)

theorem reader_expression : Reader text expression := by
  intro ends c h
  unfold expression
  rw [outcome_bind, outcome_bound]
  exact reader_expressionAt _ ends c h

end

/-! ## Statements -/

structure StatementRead (text : String) (s : Statement) : Prop where
  within : ∀ span ∈ s.ownSpans, span.Within text
  inside : ∀ e ∈ s.expressions, WellRead text e

section
variable {c : Cursor}

theorem outcome_semicolon (h : c.Placed text) :
    Outcome text semicolon c fun s c' => Passes text c s c' := by
  unfold semicolon
  rw [outcome_bind]
  refine (outcome_accept h .semicolon).mono fun t c' ht => ?_
  rcases ht with ⟨rfl, rfl⟩ | ⟨t, rfl, ht⟩
  · dsimp only
    rw [outcome_bind, outcome_get, outcome_fail]
    refine List.forall_mem_singleton.mpr ?_
    cases hp : c'.previous? with
    | some previous =>
      have hstop : IsBoundary text previous.span.stop := pos_of_previous hp ▸ h.pos
      exact Span.within_point hstop
    | none => exact Span.within_point isBoundary_zero
  · exact ht

theorem outcome_declaration (h : c.Placed text) :
    Outcome text declaration c fun d c' =>
      Moves text c c' ∧ StatementRead text (.declaration d) := by
  unfold declaration
  rw [outcome_attempt, outcome_bind]
  refine (outcome_token h .letKeyword).mono fun keyword c₁ hkeyword => ?_
  rw [outcome_bind]
  refine (outcome_accept hkeyword.placed .name).mono fun t c₂ ht => ?_
  rcases ht with ⟨rfl, rfl⟩ | ⟨declared, rfl, hdeclared⟩
  · exact outcome_failHere hkeyword.placed _
  · dsimp only
    rw [outcome_bind]
    refine (outcome_accept hdeclared.placed .assign).mono fun t c₃ ht => ?_
    have hassign := ht.moves hdeclared.placed
    split
    · rw [outcome_bind]
      refine (reader_expression .semicolon c₃ hassign.placed).mono fun value c₄ hvalue => ?_
      rw [outcome_bind]
      refine (outcome_semicolon hvalue.1.placed).mono fun s c₅ hs => ?_
      have hmiddle := hdeclared.moves.trans (hassign.trans hvalue.1.moves)
      have hspan := (hkeyword.before hmiddle).through hs
      exact ⟨hspan.moves, List.forall_mem_cons.mpr
        ⟨hdeclared.within, List.forall_mem_singleton.mpr hspan.within⟩, hvalue.2⟩
    · exact outcome_failHere hassign.placed _

theorem CallRead.statementRead {c' : Cursor} {x : Call} (h : CallRead text c x c') :
    StatementRead text (.call x) :=
  ⟨h.operandRead.within, h.inside⟩

theorem outcome_statement (h : c.Placed text) :
    Outcome text statement c fun s c' => Moves text c c' ∧ StatementRead text s := by
  unfold statement
  rw [outcome_attempt, outcome_bind, outcome_peekKind]
  split
  · exact outcome_map.mpr (outcome_declaration h)
  · rw [outcome_bind]
    refine (outcome_name h).mono fun callee c₁ hcallee => ?_
    rw [outcome_bind, outcome_peekKind]
    split
    · rw [outcome_bind]
      refine (outcome_callOf reader_expression hcallee).mono fun x c₂ hx => ?_
      rw [outcome_bind]
      refine (outcome_semicolon hx.passes.placed).mono fun s c₃ hs => ?_
      exact ⟨hx.passes.moves.trans hs.moves, hx.statementRead⟩
    · exact outcome_fail.mpr (List.forall_mem_singleton.mpr hcallee.within)
  · exact outcome_failHere h _

theorem outcome_statementsWithin (fuel : Nat) (h : c.Placed text) :
    Outcome text (statementsWithin fuel) c fun script _ =>
      ∀ s ∈ script, StatementRead text s := by
  induction fuel generalizing c with
  | zero => exact outcome_failHere h _
  | succ fuel ih =>
    unfold statementsWithin
    rw [outcome_bind]
    refine (outcome_accept h .semicolon).mono fun t c₁ ht => ?_
    have hsemicolon := ht.moves h
    split
    · exact ih hsemicolon.placed
    · rw [outcome_bind, outcome_peekKind]
      split
      · exact List.forall_mem_nil _
      · rw [outcome_bind]
        refine (outcome_statement hsemicolon.placed).mono fun s c₂ ⟨hmoves, hs⟩ => ?_
        rw [outcome_bind]
        refine (ih hmoves.placed).mono fun script c₃ hscript => ?_
        exact List.forall_mem_cons.mpr ⟨hs, hscript⟩

end

end Parse

/-! ## Scripts -/

theorem Parse.outcome_statements (text : String) :
    Parse.Outcome text Parse.statements (.ofText text) fun script _ =>
      ∀ s ∈ script, Parse.StatementRead text s := by
  have h := placed_ofText text
  unfold Parse.statements
  rw [Parse.outcome_bind, Parse.outcome_bound]
  exact Parse.outcome_statementsWithin _ h

theorem statementRead_of_parseScript {script : List Statement}
    (h : parseScript text = .ok script) : ∀ s ∈ script, Parse.StatementRead text s := by
  have hp := Parse.outcome_statements text
  unfold Parse.Outcome at hp
  unfold parseScript at h
  cases hr : Parse.statements (.ofText text) with
  | ok script' c => rw [hr] at h hp; cases h; exact hp
  | error fault c => rw [hr] at h; cases h

theorem within_of_parseScript {fault : Fault} (h : parseScript text = .error fault) :
    ∀ s ∈ fault.spans, s.Within text := by
  have hp := Parse.outcome_statements text
  unfold Parse.Outcome at hp
  unfold parseScript at h
  cases hr : Parse.statements (.ofText text) with
  | ok script c => rw [hr] at h; cases h
  | error fault' c => rw [hr] at h hp; cases h; exact hp

def sentencesOnly? (text : String) : Option Bool :=
  match parseScript text with
  | .ok script => some (script.all fun s => s.expressions.all fun e => Filled true e.items)
  | .error _ => none

theorem sentencesOnly?_eq_some_iff {script : List Statement} (h : parseScript text = .ok script)
    {b : Bool} : sentencesOnly? text = some b ↔
      (b = true ↔ ∀ s ∈ script, ∀ e ∈ s.expressions, IsExpression e.items) := by
  have hfilled : ∀ s ∈ script, ∀ e ∈ s.expressions, (Filled true e.items ↔ IsExpression e.items) :=
    fun s hs e he => ((statementRead_of_parseScript h s hs).inside e he).reads.isExpression_iff.symm
  have hall : (∀ s ∈ script, ∀ e ∈ s.expressions, Filled true e.items) ↔
      ∀ s ∈ script, ∀ e ∈ s.expressions, IsExpression e.items :=
    forall₂_congr fun s hs => forall₂_congr (hfilled s hs)
  rw [sentencesOnly?, h, Option.some_inj, Bool.eq_iff_iff, List.all_eq_true]
  simp only [List.all_eq_true, decide_eq_true_eq]
  rw [hall]
  exact Iff.comm

end MatrixScript
