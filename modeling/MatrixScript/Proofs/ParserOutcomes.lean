import MatrixScript.Program.Parser
import Mathlib.Data.List.TakeWhile

/-!
# Outcomes of parser steps

`Ends E p c Q`: from the cursor `c`, the step `p` ends with a result and a cursor that satisfy `Q`,
or it fails with a fault that satisfies `E`.  `Returns` allows every fault and `Reaches` none.
-/

namespace MatrixScript

/-! ## Taking a token -/

namespace Cursor

variable {c c' : Cursor} {t : Token}

/-- From one cursor to the next over blanks and the token `t`. -/
structure Takes (c : Cursor) (t : Token) (c' : Cursor) : Prop where
  ahead : ∃ blanks, (∀ b ∈ blanks, b.isBlank) ∧ c.ahead = blanks ++ t :: c'.ahead
  solid : t.isBlank = false

theorem Takes.peek? (h : Takes c t c') : c.peek? = some t := by
  obtain ⟨blanks, hblanks, hc⟩ := h.ahead
  rw [Cursor.peek?, hc, List.find?_append]
  have hnone : blanks.find? (!·.isBlank) = none := by
    rw [List.find?_eq_none]
    intro b hb
    simp [hblanks b hb]
  simp [hnone, h.solid]

theorem takes_advanceFrom {past ahead : List Token} :
    match advanceFrom past ahead with
    | (some t, c') => Takes ⟨past, ahead⟩ t c'
    | (none, _) => Cursor.peek? ⟨past, ahead⟩ = none := by
  induction ahead generalizing past with
  | nil => rfl
  | cons t ahead ih =>
    rw [advanceFrom]
    by_cases ht : t.isBlank
    · rw [if_pos ht]
      have hrest := @ih (t :: past)
      split at hrest
      · obtain ⟨blanks, hblanks, hahead⟩ := hrest.ahead
        refine ⟨⟨t :: blanks, List.forall_mem_cons.mpr ⟨ht, hblanks⟩, ?_⟩, hrest.solid⟩
        exact congrArg (t :: ·) hahead
      · unfold Cursor.peek? at hrest ⊢
        rw [List.find?_cons_of_neg (by simp [ht])]
        exact hrest
    · rw [if_neg ht]
      exact ⟨⟨[], List.forall_mem_nil _, rfl⟩, by simpa using ht⟩

end Cursor

namespace Parse

variable {α β : Type} {E : Fault → Prop} {p : Parse α} {c : Cursor} {Q : α → Cursor → Prop}

def Ends (E : Fault → Prop) (p : Parse α) (c : Cursor) (Q : α → Cursor → Prop) : Prop :=
  match p c with
  | .ok x c' => Q x c'
  | .error fault _ => E fault

abbrev Returns (p : Parse α) (c : Cursor) (Q : α → Cursor → Prop) : Prop :=
  Ends (fun _ => True) p c Q

abbrev Reaches (p : Parse α) (c : Cursor) (Q : α → Cursor → Prop) : Prop :=
  Ends (fun _ => False) p c Q

theorem Ends.mono (h : Ends E p c Q) {R : α → Cursor → Prop} (hQ : ∀ x c', Q x c' → R x c') :
    Ends E p c R := by
  unfold Ends at *
  split at h
  · exact hQ _ _ h
  · exact h

theorem ends_bind {f : α → Parse β} {R : β → Cursor → Prop} :
    Ends E (p >>= f) c R ↔ Ends E p c fun x c' => Ends E (f x) c' R := by
  unfold Ends
  change (match EStateM.bind p f c with | .ok x c' => _ | .error fault _ => _) ↔ _
  unfold EStateM.bind
  cases p c with
  | ok x c' => exact Iff.rfl
  | error fault c' => exact Iff.rfl

theorem Ends.bind (h : Ends E p c Q) {f : α → Parse β} {R : β → Cursor → Prop}
    (hf : ∀ x c', Q x c' → Ends E (f x) c' R) : Ends E (p >>= f) c R := ends_bind.mpr (h.mono hf)

theorem ends_map {f : α → β} {R : β → Cursor → Prop} :
    Ends E (f <$> p) c R ↔ Ends E p c fun x c' => R (f x) c' := by
  rw [map_eq_pure_bind, ends_bind]
  rfl

theorem ends_pure {x : α} : Ends E (pure x) c Q ↔ Q x c := Iff.rfl

theorem ends_get {Q : Cursor → Cursor → Prop} : Ends E get c Q ↔ Q c c := Iff.rfl

theorem ends_peekKind {Q : Option TokenKind → Cursor → Prop} :
    Ends E peekKind? c Q ↔ Q c.peekKind? c := Iff.rfl

theorem ends_bound {Q : Nat → Cursor → Prop} : Ends E bound c Q ↔ Q (c.ahead.length + 1) c :=
  Iff.rfl

theorem ends_fail {cause : Cause} {spans : List Span} :
    Ends E (fail cause spans : Parse α) c Q ↔ E ⟨cause, spans⟩ := Iff.rfl

theorem ends_failHere {cause : Cause} :
    Ends E (failHere cause : Parse α) c Q ↔ E ⟨cause, [c.span]⟩ := Iff.rfl

theorem ends_attempt : Ends E (attempt p) c Q ↔ Ends E p c Q := by
  unfold Ends attempt
  cases p c with
  | ok x c' => exact Iff.rfl
  | error fault c' => exact Iff.rfl

theorem Returns.of_eq (h : Returns p c Q) {x : α} {c' : Cursor} (hp : p c = .ok x c') : Q x c' := by
  unfold Returns Ends at h
  rwa [hp] at h

theorem Reaches.exists_eq (h : Reaches p c Q) : ∃ x c', p c = .ok x c' ∧ Q x c' := by
  unfold Reaches Ends at h
  split at h
  · next x c' hp => exact ⟨x, c', hp, h⟩
  · exact h.elim

/-! ## Results -/

section
variable {d : Cursor} {x : α} {fault : Fault}

theorem get_bind (f : Cursor → Parse β) (c : Cursor) : (get >>= f) c = f c c := rfl

theorem bind_of_eq_ok (h : p c = .ok x d) (f : α → Parse β) : (p >>= f) c = f x d := by
  change EStateM.bind p f c = f x d
  unfold EStateM.bind
  rw [h]

theorem bind_of_eq_error (h : p c = .error fault d) (f : α → Parse β) :
    (p >>= f) c = .error fault d := by
  change EStateM.bind p f c = .error fault d
  unfold EStateM.bind
  rw [h]

theorem map_of_eq {q : Parse α} (h : p c = q d) (f : α → β) : (f <$> p) c = (f <$> q) d := by
  change EStateM.map f p c = EStateM.map f q d
  unfold EStateM.map
  rw [h]

theorem attempt_of_eq_ok (h : p c = .ok x d) : attempt p c = .ok x d := by
  unfold attempt
  rw [h]

theorem attempt_of_eq_error (h : p c = .error fault d) : attempt p c = .error fault c := by
  unfold attempt
  rw [h]

end

/-! ## Basic steps -/

open Cursor

theorem ends_next (h : c.peek? = none → ∀ fault, E fault) :
    Ends E next c (Takes c) := by
  have hadvance := @takes_advanceFrom c.past c.ahead
  unfold Ends next advance
  cases hr : advanceFrom c.past c.ahead with
  | mk found c' =>
    rw [hr] at hadvance
    cases found with
    | none => exact h hadvance _
    | some t => exact hadvance

theorem ends_token {kind : TokenKind} (h : c.peekKind? ≠ some kind → ∀ fault, E fault) :
    Ends E (token kind) c fun t c' => t.kind = kind ∧ Takes c t c' := by
  have hnone : c.peek? = none → ∀ fault, E fault := by
    intro hp
    exact h (by simp [Cursor.peekKind?, hp])
  unfold token
  rw [ends_attempt]
  refine (ends_next hnone).bind fun t c' ht => ?_
  by_cases hk : t.kind = kind
  · rw [if_pos hk]
    exact ⟨hk, ht⟩
  · rw [if_neg hk, ends_fail]
    exact h (by simp [Cursor.peekKind?, ht.peek?, hk]) _

def Accepted? (c : Cursor) (here : Prop) (t : Option Token) (c' : Cursor) : Prop :=
  (t = none ∧ c' = c ∧ ¬ here) ∨ ∃ u, t = some u ∧ here ∧ Takes c u c'

theorem ends_accept {kind : TokenKind} :
    Ends E (accept kind) c (Accepted? c (c.peekKind? = some kind)) := by
  unfold accept
  rw [ends_bind, ends_peekKind]
  by_cases hk : c.peekKind? = some kind
  · have hsome : c.peek? = none → ∀ fault, E fault := by
      intro hp
      simp [Cursor.peekKind?, hp] at hk
    rw [if_pos hk, ends_map]
    exact (ends_next hsome).mono fun t c' ht => .inr ⟨t, rfl, hk, ht⟩
  · rw [if_neg hk]
    exact .inl ⟨rfl, rfl, hk⟩

theorem ends_acceptJoined {kind following : TokenKind} :
    Ends E (acceptJoined kind following) c (Accepted? c (c.peekJoined kind following)) := by
  unfold acceptJoined
  rw [ends_bind, ends_get]
  by_cases hj : c.peekJoined kind following
  · have hsome : c.peek? = none → ∀ fault, E fault := by
      intro hp
      have hdrop : c.ahead.dropWhile (·.isBlank) = [] := by
        simpa [Cursor.peek?, List.dropWhile_eq_nil_iff] using hp
      simp [peekJoined, hdrop] at hj
    rw [if_pos hj, ends_map]
    exact (ends_next hsome).mono fun t c' ht => .inr ⟨t, rfl, hj, ht⟩
  · rw [if_neg hj]
    exact .inl ⟨rfl, rfl, hj⟩

end Parse

/-! ## Numbers -/

def Token.magnitude (t : Token) : Int := Parse.decimalValue t.lexeme.toList

namespace Parse

/-- The number of digits that may be joined to a sign, and its place. -/
def literal : Option Token → Token → Int × Span
  | some minus, digits => (-digits.magnitude, minus.span.through digits.span)
  | none, digits => (digits.magnitude, digits.span)

/-- What a sign and the digits `t` lead to at the cursor `c` after them. -/
structure LiteralEnds (E : Fault → Prop) (Q : Located Int64 → Cursor → Prop) (sign : Option Token)
    (t : Token) (c : Cursor) : Prop where
  touches : ∀ u ∈ c.current?, u.kind = .name → E ⟨.numberBeforeName, [t.span, u.span]⟩
  overflows : ¬ InInt64 (literal sign t).1 → E ⟨.integerOverflow, [(literal sign t).2]⟩
  fits : InInt64 (literal sign t).1 → Q ⟨.ofInt (literal sign t).1, (literal sign t).2⟩ c

theorem ends_numeral_of {E : Fault → Prop} {c : Cursor} {Q : Located Int64 → Cursor → Prop}
    (h : Ends E (acceptJoined .sub .int) c fun sign c₁ =>
      Ends E (token .int) c₁ (LiteralEnds E Q sign)) : Ends E numeral c Q := by
  unfold numeral
  rw [ends_attempt]
  refine h.bind fun sign c₁ hsign => hsign.bind fun t c₂ ht => ?_
  rw [ends_bind, ends_get]
  extract_lets size finish
  have hfinish : Ends E (finish ()) c₂ Q := by
    unfold finish
    cases sign with
    | none =>
      dsimp only
      split
      · next hsize => exact ht.fits hsize
      · next hsize => exact ht.overflows hsize
    | some minus =>
      dsimp only
      split
      · next hsize => exact ht.fits hsize
      · next hsize => exact ht.overflows hsize
  cases hcurrent : c₂.current? with
  | none => exact hfinish
  | some u =>
    dsimp only
    split
    · next hname => exact ends_bind.mpr (ht.touches u hcurrent hname)
    · exact hfinish

end Parse

end MatrixScript
