import MatrixScript.Proofs.AbsorbedSigns
import MatrixScript.Proofs.TokensRead

/-!
# Ways to look at a program

Two programs are compared as they are, or without their spans and with the signs of numbers as parts
of the numbers.  In the second way, programs in another layout look the same.
-/

namespace MatrixScript

/-- A program as it is, or without its spans and with all signs absorbed by the numbers. -/
inductive View
  | exact
  | lax
deriving DecidableEq, Repr

namespace View

def offset : View → Nat → Nat
  | .exact => id
  | .lax => fun _ => 0

def settle : View → List (Item Operand) → List (Item Operand)
  | .exact => id
  | .lax => absorb

section
variable (v : View)

abbrev token (t : Token) : Token := t.relocate v.offset

abbrev operand (x : Operand) : Operand := recastOperand v.offset v.settle x

abbrev call (c : Call) : Call := recastCall v.offset v.settle c

abbrev row (row : Row) : Row := recastRow v.offset v.settle row

abbrev matrix (m : MatrixLiteral) : MatrixLiteral := recastMatrix v.offset v.settle m

abbrev expression (e : Expression) : Expression := recast v.offset v.settle e

abbrev statement (s : Statement) : Statement := s.recast v.offset v.settle

abbrev item (i : Item Operand) : Item Operand := recastItem v.offset v.settle i

def items (is : List (Item Operand)) : List (Item Operand) := v.settle (is.map v.item)

end

variable {v : View} {t u : Token} {ts us vs : List Token}

def Alike (v : View) (us ts : List Token) : Prop := us.map v.token = ts.map v.token

theorem Alike.cons (h : v.Alike us (t :: ts)) :
    ∃ u us', us = u :: us' ∧ v.token u = v.token t ∧ v.Alike us' ts := by
  obtain ⟨u, us', rfl, hu, hus⟩ := List.map_eq_cons_iff.mp h
  exact ⟨u, us', rfl, hu, hus⟩

theorem Alike.append (h : v.Alike us (ts ++ vs)) :
    ∃ us₁ us₂, us = us₁ ++ us₂ ∧ v.Alike us₁ ts ∧ v.Alike us₂ vs := by
  rw [Alike, List.map_append] at h
  obtain ⟨us₁, us₂, rfl, h₁, h₂⟩ := List.map_eq_append_iff.mp h
  exact ⟨us₁, us₂, rfl, h₁, h₂⟩

theorem Alike.nil (h : v.Alike us []) : us = [] := List.map_eq_nil_iff.mp h

theorem Alike.length_eq (h : v.Alike us ts) : us.length = ts.length := by
  simpa using congrArg List.length h

theorem Alike.lax_or_eq (h : v.Alike us ts) : v = .lax ∨ us = ts := by
  cases v with
  | exact =>
    have htoken : View.exact.token = id := funext fun t => rfl
    rw [Alike, htoken, List.map_id, List.map_id] at h
    exact .inr h
  | lax => exact .inl rfl

theorem kind_eq (h : v.token u = v.token t) : u.kind = t.kind := (Token.mk.inj h).1

theorem lexeme_eq (h : v.token u = v.token t) : u.lexeme = t.lexeme := (Token.mk.inj h).2.1

theorem magnitude_eq (h : v.token u = v.token t) : u.magnitude = t.magnitude := by
  rw [Token.magnitude, Token.magnitude, lexeme_eq h]

theorem span_eq (h : v.token u = v.token t) :
    u.span.relocate v.offset = t.span.relocate v.offset := (Token.mk.inj h).2.2

theorem items_cons {i j : Item Operand} {is js : List (Item Operand)} (hi : v.item i = v.item j)
    (h : v.items is = v.items js) : v.items (i :: is) = v.items (j :: js) := by
  unfold items at *
  rw [List.map_cons, List.map_cons, hi]
  cases v with
  | exact => exact congrArg (_ :: ·) h
  | lax => exact congrArg (attach _) h

/-- A sign looks the same before the number and as a part of it. -/
theorem items_sign {n m : Int64} (hn : 0 ≤ n) (hm : m = -n) (span place place' : Span)
    {is js : List (Item Operand)} (h : View.lax.items is = View.lax.items js) :
    View.lax.items (.unary ⟨.neg, span⟩ :: .operand (.number ⟨n, place⟩) :: is) =
      View.lax.items (.operand (.number ⟨m, place'⟩) :: js) := by
  unfold items at *
  simp only [List.map_cons, settle, absorb, List.foldr_cons] at *
  rw [h, hm]
  simp only [item, recastItem, recastOperand, Located.relocate, attach]
  rw [if_pos hn]
  rfl

end View

/-- The fault is that of digits that would be a number if their minus sign were joined to them. -/
structure DetachedOverflow (text : String) (fault : Fault) : Prop where
  exists_tokens : ∃ before minus blanks digits after,
    tokenize text = before ++ minus :: (blanks ++ digits :: after) ∧ minus.kind = .sub ∧
      digits.kind = .int ∧ blanks ≠ [] ∧ (∀ b ∈ blanks, b.isBlank) ∧
      digits.magnitude = 9223372036854775808 ∧
      fault = ⟨.integerOverflow, [digits.span]⟩

def View.Excuses (v : View) (text : String) (fault : Fault) : Prop :=
  v = .lax ∧ DetachedOverflow text fault

end MatrixScript
