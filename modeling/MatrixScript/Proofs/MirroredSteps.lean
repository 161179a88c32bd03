import MatrixScript.Proofs.ParserOutcomes
import MatrixScript.Proofs.MovedTokens

/-!
# Steps at another place

Two cursors mirror each other if they have the same tokens ahead, moved by `g`, and the same token
right before them, moved as well.  From there a step of the parser does the same, and where it fails
it fails with the same cause at the moved spans.  Where a statement starts less is known: the blanks
before its first token can be others.
-/

namespace MatrixScript

/-! ## Cursors -/

namespace Cursor

variable {g : Nat → Nat} {c c' : Cursor} {t : Token} {rest : List Token}

structure Mirrors (g : Nat → Nat) (c c' : Cursor) : Prop where
  ahead : c'.ahead = c.ahead.map (Token.relocate g)
  previous : ∃ t, c.previous? = some t ∧ c'.previous? = some (t.relocate g)

/-- The cursors mirror each other but for blanks and for what is before them. -/
structure Resembles (g : Nat → Nat) (c c' : Cursor) : Prop where
  ahead : c'.ahead.dropWhile (·.isBlank) = (c.ahead.dropWhile (·.isBlank)).map (Token.relocate g)
  endSpan : c'.endSpan = c.endSpan.relocate g

theorem dropWhile_relocate (g : Nat → Nat) (ts : List Token) :
    (ts.map (Token.relocate g)).dropWhile (·.isBlank) =
      (ts.dropWhile (·.isBlank)).map (Token.relocate g) := by
  induction ts with
  | nil => rfl
  | cons t ts ih =>
    have ht : (t.relocate g).isBlank = t.isBlank := rfl
    rw [List.map_cons, List.dropWhile_cons, List.dropWhile_cons, ht]
    split
    · exact ih
    · rfl

theorem Mirrors.resembles (h : c.Mirrors g c') : c.Resembles g c' where
  ahead := by rw [h.ahead, dropWhile_relocate]
  endSpan := by
    obtain ⟨t, ht, ht'⟩ := h.previous
    unfold previous? at ht ht'
    unfold endSpan
    rw [h.ahead, List.getLast?_map, ht, ht']
    cases c.ahead.getLast? <;> rfl

theorem getLast?_of_cons (h : c.ahead.dropWhile (·.isBlank) = t :: rest) :
    c.ahead.getLast? = some (rest.getLastD t) := by
  rw [← List.takeWhile_append_dropWhile (p := (·.isBlank)) (l := c.ahead), h,
    List.getLast?_append, List.getLast?_cons, Option.some_or, List.getLastD_eq_getLast?]

/-- If a token is left, nothing before the cursors matters. -/
theorem resembles_of_cons (h : c.ahead.dropWhile (·.isBlank) = t :: rest)
    (h' : c'.ahead.dropWhile (·.isBlank) = (t :: rest).map (Token.relocate g)) :
    c.Resembles g c' where
  ahead := by rw [h, h']
  endSpan := by
    unfold endSpan
    rw [getLast?_of_cons h, getLast?_of_cons h', getLastD_map]
    rfl

/-! ### The next token -/

theorem peek?_eq_head? (c : Cursor) : c.peek? = (c.ahead.dropWhile (·.isBlank)).head? :=
  List.find?_not_eq_head?_dropWhile ..

theorem advance_of_nil (h : c.ahead.dropWhile (·.isBlank) = []) :
    c.advance = (none, ⟨c.ahead.reverse ++ c.past, []⟩) := by
  obtain ⟨past, ahead⟩ := c
  unfold advance
  induction ahead generalizing past with
  | nil => rfl
  | cons t ahead ih =>
    rw [List.dropWhile_cons] at h
    split at h
    · next ht =>
      rw [advanceFrom, if_pos ht, ih (t :: past) h]
      simp
    · cases h

theorem advance_of_cons (h : c.ahead.dropWhile (·.isBlank) = t :: rest) :
    ∃ past, c.advance = (some t, ⟨t :: past, rest⟩) := by
  obtain ⟨past, ahead⟩ := c
  unfold advance
  induction ahead generalizing past with
  | nil => cases h
  | cons u ahead ih =>
    rw [List.dropWhile_cons] at h
    split at h
    · next ht =>
      rw [advanceFrom, if_pos ht]
      exact ih (u :: past) h
    · next ht =>
      cases h
      rw [advanceFrom, if_neg ht]
      exact ⟨past, rfl⟩

/-- At the end, the last token is still known. -/
theorem span_end (c : Cursor) : Cursor.span ⟨c.ahead.reverse ++ c.past, []⟩ = c.endSpan := by
  change Cursor.endSpan ⟨c.ahead.reverse ++ c.past, []⟩ = c.endSpan
  simp [endSpan, List.head?_append]

namespace Resembles

theorem peek? (h : c.Resembles g c') : c'.peek? = c.peek?.map (Token.relocate g) := by
  rw [peek?_eq_head?, peek?_eq_head?, h.ahead, List.head?_map]

theorem peekKind? (h : c.Resembles g c') : c'.peekKind? = c.peekKind? := by
  rw [Cursor.peekKind?, Cursor.peekKind?, h.peek?, Option.map_map]
  rfl

theorem peekJoined (h : c.Resembles g c') (kind next : TokenKind) :
    c'.peekJoined kind next = c.peekJoined kind next := by
  unfold Cursor.peekJoined
  rw [h.ahead]
  cases c.ahead.dropWhile (·.isBlank) with
  | nil => rfl
  | cons t rest => cases rest <;> rfl

theorem span (h : c.Resembles g c') : c'.span = c.span.relocate g := by
  unfold Cursor.span
  rw [h.peek?]
  cases c.peek? with
  | none => exact h.endSpan
  | some t => rfl

end Resembles

namespace Mirrors

theorem current? (h : c.Mirrors g c') : c'.current? = c.current?.map (Token.relocate g) := by
  rw [Cursor.current?, Cursor.current?, h.ahead, List.head?_map]

theorem length_eq (h : c.Mirrors g c') : c'.ahead.length = c.ahead.length := by
  rw [h.ahead, List.length_map]

end Mirrors

end Cursor

/-! ## Runs -/

namespace Parse

open Cursor

variable {α β : Type} {g : Nat → Nat} {p p' : Parse α} {c c' : Cursor}
  {Q : α → Cursor → α → Cursor → Prop}

/-- Two runs both succeed, with results that satisfy a condition, or they fail with the same fault,
moved by `g`. -/
def Mirrored (g : Nat → Nat) (p : Parse α) (c : Cursor) (p' : Parse α) (c' : Cursor)
    (Q : α → Cursor → α → Cursor → Prop) : Prop :=
  match p c, p' c' with
  | .ok x d, .ok x' d' => Q x d x' d'
  | .error fault _, .error fault' _ => fault' = fault.relocate g
  | _, _ => False

theorem Mirrored.cases (h : Mirrored g p c p' c' Q) :
    (∃ x d x' d', p c = .ok x d ∧ p' c' = .ok x' d' ∧ Q x d x' d') ∨
      ∃ fault d d', p c = .error fault d ∧ p' c' = .error (fault.relocate g) d' := by
  unfold Mirrored at h
  split at h
  · exact .inl ⟨_, _, _, _, ‹_›, ‹_›, h⟩
  · subst h
    exact .inr ⟨_, _, _, ‹_›, ‹_›⟩
  · exact h.elim

theorem mirrored_of_ok {x x' : α} {d d' : Cursor} (hp : p c = .ok x d) (hp' : p' c' = .ok x' d')
    (h : Q x d x' d') : Mirrored g p c p' c' Q := by
  unfold Mirrored
  rw [hp, hp']
  exact h

theorem mirrored_of_error {fault : Fault} {d d' : Cursor} (hp : p c = .error fault d)
    (hp' : p' c' = .error (fault.relocate g) d') : Mirrored g p c p' c' Q := by
  unfold Mirrored
  rw [hp, hp']

theorem Mirrored.mono (h : Mirrored g p c p' c' Q) {R : α → Cursor → α → Cursor → Prop}
    (hQ : ∀ x d x' d', Q x d x' d' → R x d x' d') : Mirrored g p c p' c' R := by
  rcases h.cases with ⟨x, d, x', d', hp, hp', hx⟩ | ⟨fault, d, d', hp, hp'⟩
  · exact mirrored_of_ok hp hp' (hQ x d x' d' hx)
  · exact mirrored_of_error hp hp'

theorem Mirrored.bind (h : Mirrored g p c p' c' Q) {f f' : α → Parse β}
    {R : β → Cursor → β → Cursor → Prop}
    (hf : ∀ x d x' d', Q x d x' d' → Mirrored g (f x) d (f' x') d' R) :
    Mirrored g (p >>= f) c (p' >>= f') c' R := by
  change Mirrored g (EStateM.bind p f) c (EStateM.bind p' f') c' R
  unfold Mirrored EStateM.bind
  rcases h.cases with ⟨x, d, x', d', hp, hp', hx⟩ | ⟨fault, d, d', hp, hp'⟩
  · rw [hp, hp']
    exact hf x d x' d' hx
  · rw [hp, hp']

theorem Mirrored.and_returns (h : Mirrored g p c p' c' Q) {P : α → Cursor → Prop}
    (hp : Returns p c P) : Mirrored g p c p' c' fun x d x' d' => Q x d x' d' ∧ P x d := by
  rcases h.cases with ⟨x, d, x', d', hok, hok', hx⟩ | ⟨fault, d, d', herror, herror'⟩
  · exact mirrored_of_ok hok hok' ⟨hx, hp.of_eq hok⟩
  · exact mirrored_of_error herror herror'

theorem mirrored_map {f f' : α → β} {R : β → Cursor → β → Cursor → Prop}
    (h : Mirrored g p c p' c' fun x d x' d' => R (f x) d (f' x') d') :
    Mirrored g (f <$> p) c (f' <$> p') c' R := by
  rw [map_eq_pure_bind, map_eq_pure_bind]
  exact h.bind fun x d x' d' h => h

theorem mirrored_get {f f' : Cursor → Parse α} (h : Mirrored g (f c) c (f' c') c' Q) :
    Mirrored g (get >>= f) c (get >>= f') c' Q := h

theorem mirrored_peekKind (h : c.Resembles g c') {f f' : Option TokenKind → Parse α}
    (hf : Mirrored g (f c.peekKind?) c (f' c.peekKind?) c' Q) :
    Mirrored g (peekKind? >>= f) c (peekKind? >>= f') c' Q := by
  change Mirrored g (f c.peekKind?) c (f' c'.peekKind?) c' Q
  rw [h.peekKind?]
  exact hf

theorem mirrored_bound (h : c.Mirrors g c') {f f' : Nat → Parse α}
    (hf : ∀ fuel, Mirrored g (f fuel) c (f' fuel) c' Q) :
    Mirrored g (bound >>= f) c (bound >>= f') c' Q := by
  change Mirrored g (f (c.ahead.length + 1)) c (f' (c'.ahead.length + 1)) c' Q
  rw [h.length_eq]
  exact hf _

theorem mirrored_fail (cause : Cause) {spans spans' : List Span}
    (h : spans' = spans.map (Span.relocate g)) :
    Mirrored g (fail cause spans : Parse α) c (fail cause spans') c' Q := by
  subst h
  rfl

theorem mirrored_failHere (h : c.Resembles g c') (cause : Cause) :
    Mirrored g (failHere cause : Parse α) c (failHere cause) c' Q := by
  unfold failHere
  apply mirrored_get
  apply mirrored_fail
  rw [h.span]
  rfl

theorem mirrored_attempt (h : Mirrored g p c p' c' Q) :
    Mirrored g (attempt p) c (attempt p') c' Q := by
  unfold Mirrored attempt
  rcases h.cases with ⟨x, d, x', d', hp, hp', hx⟩ | ⟨fault, d, d', hp, hp'⟩
  · rw [hp, hp']
    exact hx
  · rw [hp, hp']

/-! ## Tokens -/

theorem mirrored_next (h : c.Resembles g c') :
    Mirrored g next c next c' fun t d t' d' => t' = t.relocate g ∧ d.Mirrors g d' := by
  have hahead := h.ahead
  unfold Mirrored next
  cases hts : c.ahead.dropWhile (·.isBlank) with
  | nil =>
    rw [hts] at hahead
    rw [advance_of_nil hts, advance_of_nil hahead]
    dsimp only
    rw [span_end, span_end, h.endSpan]
    rfl
  | cons t rest =>
    rw [hts] at hahead
    obtain ⟨past, hadvance⟩ := advance_of_cons hts
    obtain ⟨past', hadvance'⟩ := advance_of_cons hahead
    rw [hadvance, hadvance']
    exact ⟨rfl, rfl, t, rfl, rfl⟩

theorem mirrored_token (h : c.Resembles g c') (kind : TokenKind) :
    Mirrored g (token kind) c (token kind) c'
      fun t d t' d' => t' = t.relocate g ∧ d.Mirrors g d' := by
  unfold token
  apply mirrored_attempt
  apply (mirrored_next h).bind
  intro t d t' d' ht
  obtain ⟨rfl, hd⟩ := ht
  by_cases hk : t.kind = kind
  · rw [if_pos hk, if_pos (show (t.relocate g).kind = kind from hk)]
    exact ⟨rfl, hd⟩
  · rw [if_neg hk, if_neg (show (t.relocate g).kind ≠ kind from hk)]
    exact mirrored_fail _ rfl

section
variable {R : Cursor → Cursor → Prop} (h : c.Resembles g c') (hR : R c c')
  (hnext : ∀ d d', d.Mirrors g d' → R d d')
include h hR hnext

theorem mirrored_nextIf (taken : Prop) [Decidable taken] :
    Mirrored g (if taken then some <$> next else pure none) c
      (if taken then some <$> next else pure none) c'
      fun t d t' d' => t' = t.map (Token.relocate g) ∧ R d d' := by
  by_cases ht : taken
  · rw [if_pos ht]
    apply mirrored_map
    apply (mirrored_next h).mono
    intro t d t' d' hnew
    exact ⟨congrArg some hnew.1, hnext d d' hnew.2⟩
  · rw [if_neg ht]
    exact ⟨rfl, hR⟩

theorem mirrored_accept (kind : TokenKind) :
    Mirrored g (accept kind) c (accept kind) c'
      fun t d t' d' => t' = t.map (Token.relocate g) ∧ R d d' := by
  unfold accept
  apply mirrored_peekKind h
  exact mirrored_nextIf h hR hnext _

end

/-! ## Steps that move along -/

/-- From cursors that mirror each other the second step does what the first one does, with a result
moved by `f`. -/
def Transports (g : Nat → Nat) (f : α → α) (p p' : Parse α) : Prop :=
  ∀ c c', c.Mirrors g c' → Mirrored g p c p' c' fun x d x' d' => x' = f x ∧ d.Mirrors g d'

theorem transports_accept (g : Nat → Nat) (kind : TokenKind) :
    Transports g (Option.map (Token.relocate g)) (accept kind) (accept kind) :=
  fun _ _ h => mirrored_accept h.resembles h (fun _ _ hd => hd) kind

theorem transports_acceptJoined (g : Nat → Nat) (kind following : TokenKind) :
    Transports g (Option.map (Token.relocate g)) (acceptJoined kind following)
      (acceptJoined kind following) := by
  intro c c' h
  unfold acceptJoined
  apply mirrored_get
  rw [h.resembles.peekJoined]
  exact mirrored_nextIf h.resembles h (fun _ _ hd => hd) _

theorem transports_commaSeparated {f : α → α} (hp : Transports g f p p) (fuel : Nat) :
    Transports g (List.map f) (commaSeparated p fuel) (commaSeparated p fuel) := by
  induction fuel with
  | zero => exact fun _ _ h => mirrored_failHere h.resembles _
  | succ fuel ih =>
    intro c c' h
    unfold commaSeparated
    apply (hp c c' h).bind
    intro x d x' d' hx
    obtain ⟨rfl, hd⟩ := hx
    apply (transports_accept g .comma d d' hd).bind
    intro comma e comma' e' hcomma
    obtain ⟨rfl, he⟩ := hcomma
    cases comma with
    | none => exact ⟨rfl, he⟩
    | some t =>
      apply (ih e e' he).bind
      intro xs k xs' k' hxs
      obtain ⟨rfl, hk⟩ := hxs
      exact ⟨rfl, hk⟩

end Parse

end MatrixScript
