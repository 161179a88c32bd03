import MatrixScript.Proofs.ParserOutcomes
import MatrixScript.Proofs.TextPositions

/-!
# Steps of a parser within a text

`Parse.Outcome` says what a step leads to: its result and the cursor satisfy a condition, or it
fails and the spans of the fault are within the text.  There is one rule for each way of putting
steps together and one for each of the basic steps.
-/

namespace MatrixScript

variable {text : String}

/-! ## Cursors on the tokens of a text -/

theorem Tiles.mem {start : Nat} {tokens : List Token} (h : Tiles text start tokens) {t : Token}
    (ht : t ∈ tokens) : start ≤ t.span.start ∧ t.span.Within text := by
  induction tokens generalizing start with
  | nil => cases ht
  | cons u tokens ih =>
    obtain ⟨rfl, hu, hrest⟩ := h
    rcases List.mem_cons.mp ht with rfl | ht
    · exact ⟨Nat.le_refl _, hu⟩
    · obtain ⟨hle, hw⟩ := ih hrest ht
      exact ⟨Nat.le_trans hu.le hle, hw⟩

namespace Cursor

/-- The end of the token directly before the cursor. -/
def pos (c : Cursor) : Nat := (c.previous?.map (·.span.stop)).getD 0

theorem pos_of_previous {c : Cursor} {t : Token} (h : c.previous? = some t) :
    c.pos = t.span.stop := by
  rw [pos, h]; rfl

structure Placed (text : String) (c : Cursor) : Prop where
  pos : IsBoundary text c.pos
  ahead : Tiles text c.pos c.ahead

theorem placed_ofText (text : String) : (ofText text).Placed text :=
  ⟨isBoundary_zero, tiles_tokenize text⟩

structure Moves (text : String) (c c' : Cursor) : Prop where
  placed : c'.Placed text
  le : c.pos ≤ c'.pos

/-- From one cursor to a later one, with a span that lies between them. -/
structure Passes (text : String) (c : Cursor) (s : Span) (c' : Cursor) : Prop where
  placed : c'.Placed text
  within : s.Within text
  start : c.pos ≤ s.start
  stop : s.stop ≤ c'.pos

variable {c c' c'' : Cursor} {s t : Span}

theorem Placed.moves (h : c.Placed text) : Moves text c c := ⟨h, Nat.le_refl _⟩

theorem Moves.trans (h : Moves text c c') (h' : Moves text c' c'') : Moves text c c'' :=
  ⟨h'.placed, Nat.le_trans h.le h'.le⟩

theorem Passes.moves (h : Passes text c s c') : Moves text c c' :=
  ⟨h.placed, Nat.le_trans h.start (Nat.le_trans h.within.le h.stop)⟩

theorem Passes.after (h : Passes text c' s c'') (h' : Moves text c c') : Passes text c s c'' :=
  { h with start := Nat.le_trans h'.le h.start }

theorem Passes.before (h : Passes text c s c') (h' : Moves text c' c'') : Passes text c s c'' :=
  ⟨h'.placed, h.within, h.start, Nat.le_trans h.stop h'.le⟩

theorem Passes.through (h : Passes text c s c') (h' : Passes text c' t c'') :
    Passes text c (s.through t) c'' :=
  ⟨h'.placed, h.within.through h'.within (Nat.le_trans h.stop h'.start), h.start, h'.stop⟩

/-! ### The tokens at a cursor -/

theorem Placed.within_current (h : c.Placed text) {t : Token} (ht : c.current? = some t) :
    t.span.Within text := (h.ahead.mem (List.mem_of_mem_head? ht)).2

theorem Placed.within_peek (h : c.Placed text) {t : Token} (ht : c.peek? = some t) :
    t.span.Within text := (h.ahead.mem (List.mem_of_find?_eq_some ht)).2

theorem Placed.within_endSpan (h : c.Placed text) : c.endSpan.Within text := by
  unfold endSpan
  cases ht : c.ahead.getLast? with
  | some t => exact Span.within_point (h.ahead.isBoundary_getLast ht)
  | none =>
    cases hp : c.past.head? with
    | some t => exact Span.within_point (pos_of_previous hp ▸ h.pos)
    | none => exact Span.within_point isBoundary_zero

theorem Placed.within_span (h : c.Placed text) : c.span.Within text := by
  unfold span
  cases ht : c.peek? with
  | some t => exact h.within_peek ht
  | none => exact h.within_endSpan

theorem Placed.within_previous (h : c.Placed text) {t : Token} (ht : t.span.Within text) :
    (Span.point ((c.previous?.map (·.span.stop)).getD t.span.start)).Within text := by
  cases hp : c.previous? with
  | some previous =>
    have hstop : IsBoundary text previous.span.stop := pos_of_previous hp ▸ h.pos
    exact Span.within_point hstop
  | none => exact Span.within_point ht.start

theorem advanceFrom_moves {past ahead : List Token} (h : Placed text ⟨past, ahead⟩) :
    match advanceFrom past ahead with
    | (some t, c') => Passes text ⟨past, ahead⟩ t.span c'
    | (none, c') => Moves text ⟨past, ahead⟩ c' := by
  induction ahead generalizing past with
  | nil => exact h.moves
  | cons t ahead ih =>
    obtain ⟨hstart, ht, hrest⟩ := h.ahead
    have hnext : Passes text ⟨past, t :: ahead⟩ t.span ⟨t :: past, ahead⟩ :=
      ⟨⟨ht.stop, hrest⟩, ht, Nat.le_of_eq hstart.symm, Nat.le_refl _⟩
    rw [advanceFrom]
    cases t.isBlank with
    | false => exact hnext
    | true =>
      have hih := ih hnext.placed
      rw [if_pos rfl]
      cases hr : advanceFrom (t :: past) ahead with
      | mk u c' =>
        rw [hr] at hih
        cases u with
        | none => exact hnext.moves.trans hih
        | some u => exact hih.after hnext.moves

end Cursor

/-! ## Outcomes -/

open Cursor

namespace Parse

variable {α β : Type} {p : Parse α} {c : Cursor} {Q : α → Cursor → Prop}

def Outcome (text : String) (p : Parse α) (c : Cursor) (Q : α → Cursor → Prop) : Prop :=
  match p c with
  | .ok x c' => Q x c'
  | .error fault _ => ∀ s ∈ fault.spans, s.Within text

theorem outcome_iff_ends :
    Outcome text p c Q ↔ Ends (fun fault => ∀ s ∈ fault.spans, s.Within text) p c Q := Iff.rfl

theorem Outcome.mono (h : Outcome text p c Q) {R : α → Cursor → Prop}
    (hQ : ∀ x c', Q x c' → R x c') : Outcome text p c R :=
  Ends.mono (outcome_iff_ends.mp h) hQ

theorem outcome_bind {f : α → Parse β} {R : β → Cursor → Prop} :
    Outcome text (p >>= f) c R ↔ Outcome text p c fun x c' => Outcome text (f x) c' R :=
  ends_bind

theorem outcome_map {f : α → β} {R : β → Cursor → Prop} :
    Outcome text (f <$> p) c R ↔ Outcome text p c fun x c' => R (f x) c' :=
  ends_map

theorem outcome_get {Q : Cursor → Cursor → Prop} : Outcome text get c Q ↔ Q c c := Iff.rfl

theorem outcome_peekKind {Q : Option TokenKind → Cursor → Prop} :
    Outcome text peekKind? c Q ↔ Q c.peekKind? c := Iff.rfl

theorem outcome_bound {Q : Nat → Cursor → Prop} :
    Outcome text bound c Q ↔ Q (c.ahead.length + 1) c := Iff.rfl

theorem outcome_fail {cause : Cause} {spans : List Span} :
    Outcome text (fail cause spans : Parse α) c Q ↔ ∀ s ∈ spans, s.Within text := Iff.rfl

theorem outcome_failHere (h : c.Placed text) (cause : Cause) :
    Outcome text (failHere cause : Parse α) c Q := by
  intro s hs
  obtain rfl := List.mem_singleton.mp hs
  exact h.within_span

theorem outcome_attempt : Outcome text (attempt p) c Q ↔ Outcome text p c Q := ends_attempt

/-! ## Basic steps -/

theorem outcome_next (h : c.Placed text) :
    Outcome text next c fun t c' => Passes text c t.span c' := by
  have hadv := advanceFrom_moves h
  unfold Outcome next advance
  cases hr : advanceFrom c.past c.ahead with
  | mk t c' =>
    rw [hr] at hadv
    cases t with
    | some t => exact hadv
    | none =>
      intro s hs
      obtain rfl := List.mem_singleton.mp hs
      exact hadv.placed.within_span

theorem outcome_token (h : c.Placed text) (kind : TokenKind) :
    Outcome text (token kind) c fun t c' => Passes text c t.span c' := by
  unfold token
  rw [outcome_attempt, outcome_bind]
  refine (outcome_next h).mono fun t c' ht => ?_
  split
  · exact ht
  · exact outcome_fail.mpr fun s hs => List.mem_singleton.mp hs ▸ ht.within

def Accepted (text : String) (c : Cursor) (t : Option Token) (c' : Cursor) : Prop :=
  (t = none ∧ c' = c) ∨ ∃ u, t = some u ∧ Passes text c u.span c'

theorem outcome_accept (h : c.Placed text) (kind : TokenKind) :
    Outcome text (accept kind) c (Accepted text c) := by
  unfold accept
  rw [outcome_bind, outcome_peekKind]
  split
  · exact outcome_map.mpr ((outcome_next h).mono fun t c' ht => .inr ⟨t, rfl, ht⟩)
  · exact .inl ⟨rfl, rfl⟩

theorem outcome_acceptJoined (h : c.Placed text) (kind following : TokenKind) :
    Outcome text (acceptJoined kind following) c (Accepted text c) := by
  unfold acceptJoined
  rw [outcome_bind, outcome_get]
  split
  · exact outcome_map.mpr ((outcome_next h).mono fun t c' ht => .inr ⟨t, rfl, ht⟩)
  · exact .inl ⟨rfl, rfl⟩

theorem Accepted.moves {t : Option Token} {c' : Cursor} (h : Accepted text c t c')
    (hc : c.Placed text) : Moves text c c' := by
  rcases h with ⟨-, rfl⟩ | ⟨u, -, hu⟩
  · exact hc.moves
  · exact hu.moves

theorem outcome_commaSeparated {item : Parse α} {R : α → Prop}
    (hitem : ∀ c, c.Placed text → Outcome text item c fun x c' => Moves text c c' ∧ R x)
    (fuel : Nat) (h : c.Placed text) :
    Outcome text (commaSeparated item fuel) c fun xs c' => Moves text c c' ∧ ∀ x ∈ xs, R x := by
  induction fuel generalizing c with
  | zero => exact outcome_failHere h _
  | succ fuel ih =>
    unfold commaSeparated
    rw [outcome_bind]
    refine (hitem c h).mono fun x c₁ ⟨hx, hR⟩ => ?_
    rw [outcome_bind]
    refine (outcome_accept hx.placed .comma).mono fun comma c₂ hcomma => ?_
    have hmoves := hx.trans (hcomma.moves hx.placed)
    split
    · rw [outcome_bind]
      refine (ih hmoves.placed).mono fun xs c₃ ⟨hxs, hRs⟩ => ?_
      exact ⟨hmoves.trans hxs, List.forall_mem_cons.mpr ⟨hR, hRs⟩⟩
    · exact ⟨hmoves, List.forall_mem_singleton.mpr hR⟩

end Parse

end MatrixScript
