import MatrixScript.Program.Parser

/-!
# Moves

An expression is read move by move.  Each move is made at a token of some kind and in a slot that
it fits, and a refused token is refused at spans of its own, of an open parenthesis or of the token
before it.
-/

namespace MatrixScript

/-! ## Kinds of tokens -/

/-- Where a term is due, the operator would be read as a sign. -/
def BinaryOp.looksUnary : BinaryOp → Bool
  | .add | .sub => true
  | .mul | .div => false

def BinaryOp.kind : BinaryOp → TokenKind
  | .mul => .mul
  | .div => .div
  | .add => .add
  | .sub => .sub

def UnaryOp.kind : UnaryOp → TokenKind
  | .pos => .add
  | .neg => .sub

/-- Whether an expression stops before a token outside its own parentheses. -/
def Ending.stopsAt : Ending → TokenKind → Bool
  | _, .semicolon => true
  | .argument, .comma | .argument, .closeParen => true
  | .element, .comma | .element, .closeParen | .element, .closeSquare => true
  | _, _ => false

theorem Cursor.peekKind?_of_mem {c : Cursor} {t : Token} (ht : t ∈ c.peek?) :
    c.peekKind? = some t.kind := by
  rw [peekKind?, Option.mem_def.mp ht, Option.map_some]

namespace Parse.Move

/-- The causes and the spans that a token can be refused with. -/
inductive Refused (groups : List Span) (c : Cursor) (next : Option Token) :
    Cause → List Span → Prop
  | unclosed {group : Span} (h : group ∈ groups) :
    Refused groups c next (.unclosedParenthesis true) [group]
  | unopened {t : Token} (ht : t ∈ next) :
    Refused groups c next (.unclosedParenthesis false) [t.span]
  | emptyGroup {t : Token} (ht : t ∈ next) : Refused groups c next .emptyExpression [t.span]
  | comma {group : Span} {t : Token} (h : group ∈ groups) (ht : t ∈ next) :
    Refused groups c next .commaInGroup [group, t.span]
  | nestedMatrix {t : Token} (ht : t ∈ next) : Refused groups c next .nestedVector [t.span]
  | missingSemicolon {t : Token} (ht : t ∈ next) :
    Refused groups c next .missingSemicolon
      [.point ((c.previous?.map (·.span.stop)).getD t.span.start)]
  | missingOperator {t : Token} (ht : t ∈ next) : Refused groups c next .expectedOperator [t.span]
  | unexpected {t : Token} (expected : List TokenKind) (ht : t ∈ next) :
    Refused groups c next (.unexpectedToken expected t.kind) [t.span]

/-- What is known of the next token and of the expression so far when a move is made. -/
inductive Chosen (ends : Ending) (groups : List Span) (slot : Slot) (c : Cursor)
    (next : Option Token) : Move → Prop
  | stop (hgroups : groups = []) (hends : ∀ t ∈ next, ends.stopsAt t.kind = true) :
    Chosen ends groups slot c next .stop
  | refuse {cause : Cause} {spans : List Span} (h : Refused groups c next cause spans) :
    Chosen ends groups slot c next (.refuse cause spans)
  | operand {t : Token} (ht : t ∈ next) (hslot : slot ≠ .operator)
    (hkind : t.kind = .int ∨ t.kind = .name ∨ t.kind = .sub ∧ c.peekJoined .sub .int = true ∨
      t.kind = .openSquare ∧ ends ≠ .element) : Chosen ends groups slot c next .operand
  | opening {t : Token} (ht : t ∈ next) (hslot : slot ≠ .operator) (hkind : t.kind = .openParen) :
    Chosen ends groups slot c next .opening
  | closing {t : Token} (ht : t ∈ next) (hslot : slot ≠ .first) (hkind : t.kind = .closeParen)
    (hgroups : groups ≠ []) : Chosen ends groups slot c next .closing
  | unary {op : UnaryOp} {t : Token} (ht : t ∈ next) (hslot : slot ≠ .operator)
    (hkind : t.kind = op.kind) (hjoined : op = .neg → c.peekJoined .sub .int = false) :
    Chosen ends groups slot c next (.unary op)
  | binary {op : BinaryOp} {t : Token} (ht : t ∈ next) (hkind : t.kind = op.kind)
    (hslot : op.looksUnary → slot = .operator) : Chosen ends groups slot c next (.binary op)

variable {ends : Ending} {groups : List Span} {slot : Slot} {c : Cursor} {next : Option Token}
  {t : Token}

theorem chosen_finish (hends : ∀ t ∈ next, ends.stopsAt t.kind = true) :
    Chosen ends groups slot c next (finish groups) := by
  cases groups with
  | nil => exact .stop rfl hends
  | cons group groups => exact .refuse (.unclosed List.mem_cons_self)

theorem chosen_adjacent (ht : t ∈ next) : Chosen ends groups slot c next (adjacent ends c t) := by
  cases ends with
  | semicolon => exact .refuse (.missingSemicolon ht)
  | argument | element => exact .refuse (.missingOperator ht)

theorem chosen_unexpected (ht : t ∈ next) : Chosen ends groups slot c next (unexpected slot t) :=
  .refuse (.unexpected _ ht)

theorem chosen_end (hk : ends.stopsAt t.kind = true) :
    Chosen ends groups slot c (some t) (finish groups) :=
  chosen_finish fun u hu => by
    obtain rfl : t = u := Option.some.inj hu
    exact hk

theorem chosen_beside {move : Move} (ht : t ∈ next)
    (h : slot ≠ .operator → Chosen ends groups slot c next move) :
    Chosen ends groups slot c next (if slot = .operator then adjacent ends c t else move) := by
  split
  · exact chosen_adjacent ht
  · next hslot => exact h hslot

theorem chosen_atToken : Chosen ends groups slot c (some t) (atToken ends groups slot c t) := by
  have ht : t ∈ some t := rfl
  unfold atToken
  cases hk : t.kind with
  | closeParen =>
    cases groups with
    | nil =>
      cases ends with
      | semicolon => exact .refuse (.unopened ht)
      | argument | element => exact chosen_end (by rw [hk]; rfl)
    | cons group groups =>
      dsimp only
      split
      · exact .refuse (.emptyGroup ht)
      · next hslot => exact .closing ht hslot hk (List.cons_ne_nil _ _)
  | comma =>
    cases groups with
    | nil =>
      cases ends with
      | semicolon => exact chosen_unexpected ht
      | argument | element => exact chosen_end (by rw [hk]; rfl)
    | cons group groups => exact .refuse (.comma List.mem_cons_self ht)
  | semicolon => exact chosen_end (by cases ends <;> rw [hk] <;> rfl)
  | closeSquare =>
    dsimp only
    split
    · next hends => exact chosen_end (by rw [hends, hk]; rfl)
    · exact chosen_unexpected ht
  | int => exact chosen_beside ht fun hslot => .operand ht hslot (.inl hk)
  | name => exact chosen_beside ht fun hslot => .operand ht hslot (.inr (.inl hk))
  | openParen => exact chosen_beside ht fun hslot => .opening ht hslot hk
  | openSquare =>
    refine chosen_beside ht fun hslot => ?_
    split
    · exact .refuse (.nestedMatrix ht)
    · next hends => exact .operand ht hslot (.inr (.inr (.inr ⟨hk, hends⟩)))
  | add =>
    dsimp only
    split
    · next hslot => exact .binary ht hk fun _ => hslot
    · next hslot => exact .unary ht hslot hk fun h => by cases h
  | sub =>
    dsimp only
    split
    · next hslot => exact .binary ht hk fun _ => hslot
    · next hslot =>
      split
      · next hjoined => exact .operand ht hslot (.inr (.inr (.inl ⟨hk, hjoined⟩)))
      · next hjoined => exact .unary ht hslot hk fun _ => by simpa using hjoined
  | mul | div => exact .binary ht hk fun h => by cases h
  | newLine | whitespace | assign | letKeyword | symbol => exact chosen_unexpected ht

theorem chosen_of_eq {move : Move} (h : ofCursor ends groups slot c = move) :
    Chosen ends groups slot c c.peek? move := by
  subst h
  unfold ofCursor
  cases c.peek? with
  | none => exact chosen_finish fun t ht => by cases ht
  | some t => exact chosen_atToken

end Parse.Move

end MatrixScript
