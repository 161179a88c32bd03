import MatrixScript.Proofs.Moves
import MatrixScript.Report

/-!
# Labels of faults

How many labels a fault has is said by its cause, and how many spans it has by the step that fails.
`Raises Labelled` says that the two agree for every fault of a step.  There is one rule for each way
of putting steps together; every step of the parser follows from them, wherever it starts.
-/

namespace MatrixScript

namespace Fault

def Labelled (f : Fault) : Prop := f.spans.length = f.cause.labels.length

end Fault

theorem Cause.labels_pos (cause : Cause) : 0 < cause.labels.length := by
  cases cause <;> exact Nat.succ_pos _

namespace Fault.Labelled

variable {f : Fault}

theorem spans_pos (h : f.Labelled) : 0 < f.spans.length := by
  rw [h]
  exact f.cause.labels_pos

theorem labels_report (h : f.Labelled) : f.report.labels = f.cause.labels :=
  List.take_of_length_le (Nat.le_of_eq h.symm)

end Fault.Labelled

/-! ## Steps -/

def Raises {ε σ α : Type} (E : ε → Prop) (p : EStateM ε σ α) : Prop :=
  ∀ s e s', p s = .error e s' → E e

section
variable {ε σ α β : Type} {E : ε → Prop} {p : EStateM ε σ α}

theorem raises_pure (x : α) : Raises E (pure x : EStateM ε σ α) := by
  intro s e s' h
  cases h

theorem raises_get : Raises E (get : EStateM ε σ σ) := by
  intro s e s' h
  cases h

theorem raises_throw {e : ε} (he : E e) : Raises E (throw e : EStateM ε σ α) := by
  intro s e' s' h
  cases h
  exact he

theorem raises_ofExcept {result : Except ε α} (h : ∀ e, result = .error e → E e) :
    Raises E (ofExcept result : EStateM ε σ α) := by
  cases result with
  | ok x => exact raises_pure x
  | error e => exact raises_throw (h e rfl)

/-- What follows a step only has to be looked at for the results of the step. -/
theorem Raises.bind_of {f : α → EStateM ε σ β} (hp : Raises E p)
    (hf : ∀ s x s', p s = .ok x s' → Raises E (f x)) : Raises E (p >>= f) := by
  intro s e s' h
  change EStateM.bind p f s = .error e s' at h
  unfold EStateM.bind at h
  split at h
  · exact hf _ _ _ ‹_› _ _ _ h
  · cases h
    exact hp _ _ _ ‹_›

theorem Raises.bind {f : α → EStateM ε σ β} (hp : Raises E p) (hf : ∀ x, Raises E (f x)) :
    Raises E (p >>= f) :=
  hp.bind_of fun _ x _ _ => hf x

theorem Raises.map {f : α → β} (hp : Raises E p) : Raises E (f <$> p) := by
  rw [map_eq_pure_bind]
  exact hp.bind fun x => raises_pure (f x)

end

open Fault

namespace Parse

variable {α : Type} {p : Parse α}

theorem labelled_fail {cause : Cause} {spans : List Span} (h : (Fault.mk cause spans).Labelled) :
    Raises Labelled (fail cause spans : Parse α) := raises_throw h

theorem labelled_get : Raises Labelled (get : Parse Cursor) := raises_get

theorem labelled_failHere {cause : Cause} (h : cause.labels.length = 1) :
    Raises Labelled (failHere cause : Parse α) := by
  unfold failHere
  apply labelled_get.bind
  intro c
  exact labelled_fail h.symm

theorem labelled_attempt (hp : Raises Labelled p) : Raises Labelled (attempt p) := by
  intro c fault c' h
  unfold attempt at h
  split at h
  · cases h
  · cases h
    exact hp _ _ _ ‹_›

theorem labelled_peekKind : Raises Labelled peekKind? :=
  labelled_get.bind fun c => raises_pure c.peekKind?

theorem labelled_bound : Raises Labelled bound :=
  labelled_get.bind fun c => raises_pure (c.ahead.length + 1)

/-! ## Tokens -/

theorem labelled_next : Raises Labelled next := by
  intro c fault c' h
  unfold next at h
  split at h
  · cases h
  · cases h
    rfl

theorem labelled_token (kind : TokenKind) : Raises Labelled (token kind) := by
  unfold token
  apply labelled_attempt
  apply labelled_next.bind
  intro t
  split
  · exact raises_pure t
  · exact labelled_fail rfl

theorem labelled_accept (kind : TokenKind) : Raises Labelled (accept kind) := by
  unfold accept
  apply labelled_peekKind.bind
  intro found
  split
  · exact labelled_next.map
  · exact raises_pure none

theorem labelled_acceptJoined (kind following : TokenKind) :
    Raises Labelled (acceptJoined kind following) := by
  unfold acceptJoined
  apply labelled_get.bind
  intro c
  split
  · exact labelled_next.map
  · exact raises_pure none

theorem labelled_commaSeparated (hp : Raises Labelled p) (fuel : Nat) :
    Raises Labelled (commaSeparated p fuel) := by
  induction fuel with
  | zero => exact labelled_failHere rfl
  | succ fuel ih =>
    unfold commaSeparated
    apply hp.bind
    intro x
    apply (labelled_accept .comma).bind
    intro comma
    split
    · exact ih.bind fun xs => raises_pure (x :: xs)
    · exact raises_pure [x]

/-! ## Operands -/

theorem labelled_numeral : Raises Labelled numeral := by
  unfold numeral
  apply labelled_attempt
  apply (labelled_acceptJoined .sub .int).bind
  intro sign
  apply (labelled_token .int).bind
  intro digits
  apply labelled_get.bind
  intro c
  extract_lets size literal
  have hliteral : Raises Labelled (literal ()) := by
    unfold literal
    split
    split
    · exact raises_pure _
    · exact labelled_fail rfl
  split
  · split
    · apply Raises.bind
      · exact labelled_fail rfl
      · exact fun _ => hliteral
    · exact hliteral
  · exact hliteral

theorem labelled_name : Raises Labelled name := by
  unfold name
  exact (labelled_token .name).bind fun t => raises_pure _

theorem labelled_bracketed (hp : Raises Labelled p) : Raises Labelled (bracketed p) := by
  unfold bracketed
  apply (labelled_token .openSquare).bind
  intro opening
  apply (labelled_accept .closeSquare).bind
  intro closing?
  split
  · exact raises_pure _
  · apply labelled_bound.bind
    intro fuel
    apply (labelled_commaSeparated hp fuel).bind
    intro items
    apply (labelled_accept .closeSquare).bind
    intro closing?
    split
    · exact raises_pure _
    · exact labelled_get.bind fun c => labelled_fail rfl

section
variable {nested : Ending → Parse Expression}

theorem labelled_callOf (hn : ∀ ends, Raises Labelled (nested ends)) (callee : Located String) :
    Raises Labelled (callOf nested callee) := by
  unfold callOf
  apply (labelled_token .openParen).bind
  intro opening
  apply (labelled_accept .closeParen).bind
  intro closing?
  split
  · exact raises_pure _
  · apply labelled_bound.bind
    intro fuel
    apply (labelled_commaSeparated (hn .argument) fuel).bind
    intro args
    apply (labelled_accept .closeParen).bind
    intro closing?
    split
    · exact raises_pure _
    · exact labelled_fail rfl

theorem labelled_rowOf (hn : ∀ ends, Raises Labelled (nested ends)) :
    Raises Labelled (rowOf nested) := by
  unfold rowOf
  apply labelled_attempt
  apply labelled_peekKind.bind
  intro kind
  split
  · exact labelled_bracketed (hn .element)
  · exact labelled_failHere rfl

theorem labelled_matrixOf (hn : ∀ ends, Raises Labelled (nested ends)) :
    Raises Labelled (matrixOf nested) :=
  labelled_attempt (labelled_bracketed (labelled_rowOf hn))

theorem labelled_operandOf (hn : ∀ ends, Raises Labelled (nested ends)) :
    Raises Labelled (operandOf nested) := by
  unfold operandOf
  apply labelled_peekKind.bind
  intro kind
  split
  · exact labelled_numeral.map
  · exact labelled_numeral.map
  · apply labelled_name.bind
    intro symbol
    apply labelled_peekKind.bind
    intro kind
    split
    · exact (labelled_callOf hn symbol).map
    · exact raises_pure _
  · exact (labelled_matrixOf hn).map

end

/-! ## Expressions -/

def Move.Labels : Move → Prop
  | .refuse cause spans => (Fault.mk cause spans).Labelled
  | .stop | .operand | .opening | .closing | .unary _ | .binary _ => True

theorem Move.labels_ofCursor (ends : Ending) (groups : List Span) (slot : Slot) (c : Cursor) :
    (Move.ofCursor ends groups slot c).Labels := by
  generalize hm : Move.ofCursor ends groups slot c = move
  cases Move.chosen_of_eq hm with
  | refuse h => cases h <;> exact rfl
  | stop | operand | opening | closing | unary | binary => trivial

section
variable {nested : Ending → Parse Expression}

theorem labelled_itemsOf (hn : ∀ ends, Raises Labelled (nested ends)) (ends : Ending)
    (fuel : Nat) (groups : List Span) (slot : Slot) :
    Raises Labelled (itemsOf nested ends fuel groups slot) := by
  induction fuel generalizing groups slot with
  | zero => exact labelled_failHere rfl
  | succ fuel ih =>
    unfold itemsOf
    apply labelled_get.bind
    intro c
    have hmove := Move.labels_ofCursor ends groups slot c
    cases hm : Move.ofCursor ends groups slot c with
    | stop => exact raises_pure []
    | refuse cause spans =>
      rw [hm] at hmove
      exact labelled_fail hmove
    | operand =>
      exact (labelled_operandOf hn).bind fun x =>
        (ih groups .operator).bind fun _ => raises_pure _
    | opening =>
      exact labelled_next.bind fun t =>
        (ih (t.span :: groups) .first).bind fun _ => raises_pure _
    | closing =>
      exact labelled_next.bind fun t =>
        (ih groups.tail .operator).bind fun _ => raises_pure _
    | unary op =>
      exact labelled_next.bind fun t =>
        (ih groups .operand).bind fun _ => raises_pure _
    | binary op =>
      exact labelled_next.bind fun t =>
        (ih groups .operand).bind fun _ => raises_pure _

end

theorem labelled_expressionAt (depth : Nat) (ends : Ending) :
    Raises Labelled (expressionAt depth ends) := by
  induction depth generalizing ends with
  | zero => exact labelled_failHere rfl
  | succ depth ih =>
    unfold expressionAt
    apply labelled_bound.bind
    intro fuel
    unfold expressionOf
    apply (labelled_itemsOf ih ends fuel [] .operand).bind
    intro items
    cases items with
    | nil => exact labelled_failHere rfl
    | cons first rest => exact raises_pure _

theorem labelled_expression (ends : Ending) : Raises Labelled (expression ends) :=
  labelled_bound.bind fun depth => labelled_expressionAt depth ends

/-! ## Statements -/

theorem labelled_semicolon : Raises Labelled semicolon := by
  unfold semicolon
  apply (labelled_accept .semicolon).bind
  intro found
  split
  · exact raises_pure _
  · exact labelled_get.bind fun c => labelled_fail rfl

theorem labelled_declaration : Raises Labelled declaration := by
  unfold declaration
  apply labelled_attempt
  apply (labelled_token .letKeyword).bind
  intro keyword
  apply (labelled_accept .name).bind
  intro declared?
  split
  · exact labelled_failHere rfl
  · apply (labelled_accept .assign).bind
    intro assign
    split
    · exact (labelled_expression .semicolon).bind fun value =>
        labelled_semicolon.bind fun _ => raises_pure _
    · exact labelled_failHere rfl

theorem labelled_statement : Raises Labelled statement := by
  unfold statement
  apply labelled_attempt
  apply labelled_peekKind.bind
  intro kind
  split
  · exact labelled_declaration.map
  · apply labelled_name.bind
    intro callee
    apply labelled_peekKind.bind
    intro kind
    split
    · exact (labelled_callOf labelled_expression callee).bind fun c =>
        labelled_semicolon.bind fun _ => raises_pure _
    · exact labelled_fail rfl
  · exact labelled_failHere rfl

theorem labelled_statementsWithin (fuel : Nat) : Raises Labelled (statementsWithin fuel) := by
  induction fuel with
  | zero => exact labelled_failHere rfl
  | succ fuel ih =>
    unfold statementsWithin
    apply (labelled_accept .semicolon).bind
    intro found
    split
    · exact ih
    · apply labelled_peekKind.bind
      intro kind
      split
      · exact raises_pure []
      · exact labelled_statement.bind fun s => ih.bind fun _ => raises_pure _

end Parse

theorem labelled_of_parseScript {text : String} {fault : Fault}
    (h : parseScript text = .error fault) : fault.Labelled := by
  unfold parseScript at h
  split at h
  · cases h
  · cases h
    have hstatements : Raises Labelled Parse.statements :=
      Parse.labelled_bound.bind Parse.labelled_statementsWithin
    exact hstatements _ _ _ ‹_›

end MatrixScript
