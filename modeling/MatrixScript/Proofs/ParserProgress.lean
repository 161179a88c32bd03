import Mathlib.Order.Defs.PartialOrder
import MatrixScript.Program.Parser
import MatrixScript.Proofs.ParserOutcomes

/-!
# Progress of the parser

The cursor moves over one token after the other, and only an attempt that fails takes it back, to
where the attempt started.  Whatever is read takes up a token at least.
-/

namespace MatrixScript

/-! ## The order of cursors -/

namespace Cursor

def position (c : Cursor) : Nat := c.past.length

/-- A cursor is before another one if both are in the same tokens. -/
instance : Preorder Cursor where
  le c d := d.tokens = c.tokens ∧ c.position ≤ d.position
  lt c d := d.tokens = c.tokens ∧ c.position < d.position
  le_refl c := ⟨rfl, Nat.le_refl _⟩
  le_trans c d e h h' := ⟨h'.1.trans h.1, Nat.le_trans h.2 h'.2⟩
  lt_iff_le_not_ge c d := by
    constructor
    · exact fun h => ⟨⟨h.1, Nat.le_of_lt h.2⟩, fun h' => Nat.not_lt_of_le h'.2 h.2⟩
    · exact fun h => ⟨h.1.1, Nat.lt_of_not_le fun h' => h.2 ⟨h.1.1.symm, h'⟩⟩

variable {c d : Cursor}

theorem length_tokens (c : Cursor) : c.tokens.length = c.position + c.ahead.length := by
  simp [tokens, position]

theorem position_le (c : Cursor) : c.position ≤ c.tokens.length := by
  rw [length_tokens]
  exact Nat.le_add_right _ _

theorem length_ahead_lt (h : c < d) : d.ahead.length < c.ahead.length := by
  have hc := c.length_tokens
  have hd := d.length_tokens
  rw [h.1] at hd
  have hlt := h.2
  omega

theorem advanceFrom_le {past ahead : List Token} {t : Option Token}
    (h : advanceFrom past ahead = (t, d)) :
    (⟨past, ahead⟩ : Cursor) ≤ d ∧ (t.isSome → (⟨past, ahead⟩ : Cursor) < d) := by
  induction ahead generalizing past with
  | nil =>
    cases h
    exact ⟨le_refl _, by simp⟩
  | cons u ahead ih =>
    have hnext : (⟨past, u :: ahead⟩ : Cursor) < ⟨u :: past, ahead⟩ :=
      ⟨by simp [tokens], Nat.lt_succ_self _⟩
    rw [advanceFrom] at h
    split at h
    · obtain ⟨hle, -⟩ := ih h
      exact ⟨hnext.le.trans hle, fun _ => hnext.trans_le hle⟩
    · cases h
      exact ⟨hnext.le, fun _ => hnext⟩

end Cursor

namespace Parse

/-! ## Steps that keep their place -/

section
variable {α β : Type} {p : Parse α}

/-- Steps put together from looking at the cursor, taking the next token, and attempts.  Nothing but
an attempt that fails takes the cursor back. -/
inductive Orderly : {α : Type} → Parse α → Prop
  | pure {α : Type} (x : α) : Orderly (pure x)
  | throw {α : Type} (fault : Fault) : Orderly (throw fault : Parse α)
  | get : Orderly (get : Parse Cursor)
  | next : Orderly next
  | bind {α β : Type} {p : Parse α} {f : α → Parse β} (hp : Orderly p)
      (hf : ∀ x, Orderly (f x)) : Orderly (p >>= f)
  | attempt {α : Type} {p : Parse α} (hp : Orderly p) : Orderly (attempt p)

def Forward (p : Parse α) : Prop :=
  ∀ c, match p c with
    | .ok _ d | .error _ d => c ≤ d

theorem next_cases (c : Cursor) :
    (∃ t d, next c = .ok t d ∧ c < d) ∨ ∃ fault d, next c = .error fault d ∧ c ≤ d := by
  unfold next
  cases h : c.advance with
  | mk t d =>
    cases t with
    | some t => exact .inl ⟨t, d, rfl, (Cursor.advanceFrom_le h).2 rfl⟩
    | none => exact .inr ⟨_, d, rfl, (Cursor.advanceFrom_le h).1⟩

theorem Forward.le_of_ok (h : Forward p) {c d : Cursor} {x : α} (hp : p c = .ok x d) : c ≤ d := by
  have hc := h c
  rwa [hp] at hc

theorem Orderly.forward (h : Orderly p) : Forward p := by
  induction h with
  | pure | throw | get => exact fun c => le_refl c
  | next =>
    intro c
    rcases next_cases c with ⟨t, d, hd, hlt⟩ | ⟨fault, d, hd, hle⟩
    · rw [hd]
      exact hlt.le
    · rw [hd]
      exact hle
  | @bind _ _ p f _ _ hp hf =>
    intro c
    have hc := hp c
    cases hd : p c with
    | ok x d =>
      have hx := hf x d
      rw [hd] at hc
      rw [bind_of_eq_ok hd]
      split at hx <;> exact le_trans hc hx
    | error fault d =>
      rw [hd] at hc
      rw [bind_of_eq_error hd]
      exact hc
  | @attempt _ p _ hp =>
    intro c
    cases hd : p c with
    | ok x d =>
      rw [attempt_of_eq_ok hd]
      have hc := hp c
      rwa [hd] at hc
    | error fault d => simp only [attempt_of_eq_error hd, le_refl]

theorem Orderly.map {f : α → β} (h : Orderly p) : Orderly (f <$> p) := by
  rw [map_eq_pure_bind]
  exact h.bind fun x => .pure (f x)

end

/-! ## Steps that take tokens -/

section
variable {α β : Type} {p : Parse α} {f : α → Parse β}

def Advances (p : Parse α) : Prop :=
  ∀ c x d, p c = .ok x d →
    d.tokens = c.tokens ∧ c.position < d.position ∧ d.position ≤ c.tokens.length

theorem advances_iff : Advances p ↔ ∀ c x d, p c = .ok x d → c < d := by
  refine forall₄_congr fun c x d _ => ?_
  constructor
  · exact fun h => ⟨h.1, h.2.1⟩
  · exact fun h => ⟨h.1, h.2, h.1 ▸ d.position_le⟩

structure Progresses (p : Parse α) : Prop where
  orderly : Orderly p
  advances : Advances p

theorem Progresses.lt (h : Progresses p) {c d : Cursor} {x : α} (hp : p c = .ok x d) : c < d :=
  advances_iff.mp h.advances c x d hp

theorem progresses_throw (fault : Fault) : Progresses (throw fault : Parse α) :=
  ⟨.throw _, fun _ _ _ h => by cases h⟩

theorem progresses_next : Progresses next := by
  refine ⟨.next, advances_iff.mpr fun c t d hd => ?_⟩
  rcases next_cases c with ⟨u, e, he, hlt⟩ | ⟨fault, e, he, -⟩
  · cases he.symm.trans hd
    exact hlt
  · cases he.symm.trans hd

theorem Progresses.bind (hp : Progresses p) (hf : ∀ x, Orderly (f x)) : Progresses (p >>= f) := by
  refine ⟨hp.orderly.bind hf, advances_iff.mpr fun c y e he => ?_⟩
  cases hd : p c with
  | ok x d =>
    rw [bind_of_eq_ok hd] at he
    exact (hp.lt hd).trans_le ((hf x).forward.le_of_ok he)
  | error fault d =>
    rw [bind_of_eq_error hd] at he
    cases he

theorem Orderly.bind_progresses (hp : Orderly p) (hf : ∀ x, Progresses (f x)) :
    Progresses (p >>= f) := by
  refine ⟨hp.bind fun x => (hf x).orderly, advances_iff.mpr fun c y e he => ?_⟩
  cases hd : p c with
  | ok x d =>
    rw [bind_of_eq_ok hd] at he
    exact (hp.forward.le_of_ok hd).trans_lt ((hf x).lt he)
  | error fault d =>
    rw [bind_of_eq_error hd] at he
    cases he

theorem Progresses.map {f : α → β} (h : Progresses p) : Progresses (f <$> p) := by
  rw [map_eq_pure_bind]
  exact h.bind fun x => .pure (f x)

theorem Progresses.attempt (h : Progresses p) : Progresses (attempt p) := by
  refine ⟨.attempt h.orderly, fun c x d hd => ?_⟩
  cases he : p c with
  | ok y e =>
    rw [attempt_of_eq_ok he] at hd
    cases hd
    exact h.advances c x d he
  | error fault e =>
    rw [attempt_of_eq_error he] at hd
    cases hd

theorem progresses_fail (cause : Cause) (spans : List Span) :
    Progresses (fail cause spans : Parse α) := progresses_throw _

theorem progresses_failHere (cause : Cause) : Progresses (failHere cause : Parse α) :=
  Orderly.get.bind_progresses fun _ => progresses_fail _ _

end

/-! ## Tokens and lists -/

section
variable {α : Type} {item : Parse α}

theorem orderly_peekKind : Orderly peekKind? := .bind .get fun _ => .pure _

theorem orderly_bound : Orderly bound := .bind .get fun _ => .pure _

theorem progresses_token (kind : TokenKind) : Progresses (token kind) := by
  refine .attempt (progresses_next.bind fun t => ?_)
  split
  · exact .pure t
  · exact (progresses_fail _ _).orderly

theorem orderly_accept (kind : TokenKind) : Orderly (accept kind) := by
  refine orderly_peekKind.bind fun _ => ?_
  split
  · exact .map .next
  · exact .pure none

theorem orderly_acceptJoined (kind following : TokenKind) :
    Orderly (acceptJoined kind following) := by
  refine .bind .get fun _ => ?_
  split
  · exact .map .next
  · exact .pure none

theorem progresses_numeral : Progresses numeral := by
  refine .attempt ((orderly_acceptJoined _ _).bind_progresses fun sign => ?_)
  refine (progresses_token _).bind fun digits => .bind .get fun c => ?_
  extract_lets size finish
  have hfinish : Orderly (finish ()) := by
    unfold finish
    cases sign with
    | none | some =>
      dsimp only
      split
      · exact .pure _
      · exact (progresses_fail _ _).orderly
  split
  · split
    · exact .bind (progresses_fail _ _).orderly fun _ => hfinish
    · exact hfinish
  · exact hfinish

theorem progresses_name : Progresses name := (progresses_token _).bind fun _ => .pure _

theorem orderly_commaSeparated (hitem : Orderly item) (fuel : Nat) :
    Orderly (commaSeparated item fuel) := by
  induction fuel with
  | zero => exact (progresses_failHere _).orderly
  | succ fuel ih =>
    refine hitem.bind fun x => (orderly_accept _).bind fun comma => ?_
    split
    · exact ih.bind fun xs => .pure _
    · exact .pure _

theorem progresses_bracketed (hitem : Orderly item) : Progresses (bracketed item) := by
  refine (progresses_token _).bind fun opening => (orderly_accept _).bind fun closing => ?_
  split
  · exact .pure _
  · refine orderly_bound.bind fun fuel => (orderly_commaSeparated hitem fuel).bind fun items => ?_
    refine (orderly_accept _).bind fun closing => ?_
    split
    · exact .pure _
    · exact .bind .get fun _ => (progresses_fail _ _).orderly

end

/-! ## Operands -/

section
variable {nested : Ending → Parse Expression} (hn : ∀ ends, Orderly (nested ends))
include hn

theorem progresses_callOf (callee : Located String) : Progresses (callOf nested callee) := by
  refine (progresses_token _).bind fun opening => (orderly_accept _).bind fun closing => ?_
  split
  · exact .pure _
  · refine orderly_bound.bind fun fuel =>
      (orderly_commaSeparated (hn _) fuel).bind fun args => ?_
    refine (orderly_accept _).bind fun closing => ?_
    split
    · exact .pure _
    · exact (progresses_fail _ _).orderly

theorem progresses_rowOf : Progresses (rowOf nested) := by
  refine .attempt (orderly_peekKind.bind_progresses fun _ => ?_)
  split
  · exact progresses_bracketed (hn _)
  · exact progresses_failHere _

theorem progresses_matrixOf : Progresses (matrixOf nested) :=
  .attempt (progresses_bracketed (progresses_rowOf hn).orderly)

theorem progresses_operandOf : Progresses (operandOf nested) := by
  refine orderly_peekKind.bind_progresses fun kind => ?_
  split
  · exact progresses_numeral.map
  · exact progresses_numeral.map
  · refine progresses_name.bind fun symbol => orderly_peekKind.bind fun _ => ?_
    split
    · exact (progresses_callOf hn symbol).orderly.map
    · exact .pure _
  · exact (progresses_matrixOf hn).map

/-! ## Expressions -/

theorem orderly_itemsOf (ends : Ending) (fuel : Nat) (groups : List Span) (slot : Slot) :
    Orderly (itemsOf nested ends fuel groups slot) := by
  induction fuel generalizing groups slot with
  | zero => exact (progresses_failHere _).orderly
  | succ fuel ih =>
    refine .bind .get fun c => ?_
    cases Move.ofCursor ends groups slot c with
    | stop => exact .pure _
    | refuse => exact (progresses_fail _ _).orderly
    | operand => exact (progresses_operandOf hn).orderly.bind fun _ => (ih _ _).bind fun _ => .pure _
    | opening | closing | unary | binary =>
      exact .bind .next fun _ => (ih _ _).bind fun _ => .pure _

/-- Without an item nothing is read. -/
theorem lt_of_itemsOf {ends : Ending} {fuel : Nat} {groups : List Span} {slot : Slot}
    {c d : Cursor} {i : Item Operand} {is : List (Item Operand)}
    (h : itemsOf nested ends fuel groups slot c = .ok (i :: is) d) : c < d := by
  obtain _ | fuel := fuel
  · cases h
  have hrest (groups : List Span) (slot : Slot) (i : Item Operand) :
      Orderly (itemsOf nested ends fuel groups slot >>= fun is => pure (i :: is)) :=
    (orderly_itemsOf hn ends fuel groups slot).bind fun is => .pure _
  rw [itemsOf, get_bind] at h
  generalize Move.ofCursor ends groups slot c = move at h
  cases move with
  | stop | refuse => cases h
  | operand => exact ((progresses_operandOf hn).bind fun x => hrest _ _ _).lt h
  | opening | closing | unary | binary => exact (progresses_next.bind fun t => hrest _ _ _).lt h

end

theorem progresses_expressionOf {items : Parse (List (Item Operand))} (h : Orderly items)
    (hitems : ∀ c i is d, items c = .ok (i :: is) d → c < d) : Progresses (expressionOf items) := by
  refine ⟨h.bind fun items => ?_, advances_iff.mpr fun c e d hd => ?_⟩
  · split
    · exact (progresses_failHere _).orderly
    · exact .pure _
  · unfold expressionOf at hd
    cases hx : items c with
    | ok read d' =>
      rw [bind_of_eq_ok hx] at hd
      cases read with
      | nil => cases hd
      | cons i is =>
        cases hd
        exact hitems c i is _ hx
    | error fault d' =>
      rw [bind_of_eq_error hx] at hd
      cases hd

theorem progresses_expressionAt (depth : Nat) (ends : Ending) :
    Progresses (expressionAt depth ends) := by
  induction depth generalizing ends with
  | zero => exact progresses_failHere _
  | succ depth ih =>
    have hn (ends : Ending) : Orderly (expressionAt depth ends) := (ih ends).orderly
    refine orderly_bound.bind_progresses fun fuel => ?_
    exact progresses_expressionOf (orderly_itemsOf hn ends fuel [] _) fun _ _ _ _ =>
      lt_of_itemsOf hn

theorem progresses_expression (ends : Ending) : Progresses (expression ends) :=
  orderly_bound.bind_progresses fun depth => progresses_expressionAt depth ends

theorem orderly_expression (ends : Ending) : Orderly (expression ends) :=
  (progresses_expression ends).orderly

/-! ## Statements -/

theorem orderly_semicolon : Orderly semicolon := by
  refine (orderly_accept _).bind fun t => ?_
  split
  · exact .pure _
  · exact .bind .get fun _ => (progresses_fail _ _).orderly

theorem progresses_declaration : Progresses declaration := by
  refine .attempt ((progresses_token _).bind fun keyword => (orderly_accept _).bind fun name => ?_)
  split
  · exact (progresses_failHere _).orderly
  · refine (orderly_accept _).bind fun assign => ?_
    split
    · exact (orderly_expression _).bind fun value => orderly_semicolon.bind fun _ => .pure _
    · exact (progresses_failHere _).orderly

theorem progresses_statement : Progresses statement := by
  refine .attempt (orderly_peekKind.bind_progresses fun kind => ?_)
  split
  · exact progresses_declaration.map
  · refine progresses_name.bind fun callee => orderly_peekKind.bind fun _ => ?_
    split
    · refine (progresses_callOf orderly_expression callee).orderly.bind fun c => ?_
      exact orderly_semicolon.bind fun _ => .pure _
    · exact (progresses_fail _ _).orderly
  · exact progresses_failHere _

theorem orderly_statementsWithin (fuel : Nat) : Orderly (statementsWithin fuel) := by
  induction fuel with
  | zero => exact (progresses_failHere _).orderly
  | succ fuel ih =>
    refine (orderly_accept _).bind fun t => ?_
    split
    · exact ih
    · refine orderly_peekKind.bind fun kind => ?_
      split
      · exact .pure _
      · exact progresses_statement.orderly.bind fun s => ih.bind fun script => .pure _

theorem orderly_statements : Orderly statements :=
  orderly_bound.bind fun fuel => orderly_statementsWithin fuel

end Parse

end MatrixScript
