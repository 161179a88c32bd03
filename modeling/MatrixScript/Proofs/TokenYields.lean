import MatrixScript.Proofs.LegiblePrograms
import MatrixScript.Proofs.PlacedWords

/-!
# Programs and their tokens

A program yields tokens if these, without the blanks between them, are what it is written with.  The
spans of the program are those of the tokens, and a sign is part of a number exactly if it touches
the digits.
-/

namespace MatrixScript

open Parse

/-! ## Numbers and lists -/

def Token.Joins (t : Token) (kind : TokenKind) (ts : List Token) : Prop :=
  ∃ u ∈ ts.head?, u.kind = kind ∧ t.span.stop = u.span.start

theorem Token.Joins.append {t : Token} {kind : TokenKind} {ts : List Token}
    (h : t.Joins kind ts) (us : List Token) : t.Joins kind (ts ++ us) := by
  obtain ⟨u, hu, hk⟩ := h
  exact ⟨u, by rw [List.head?_append, hu]; rfl, hk⟩

inductive NumeralYields : Located Int64 → List Token → Prop
  | plain {t : Token} (hk : t.kind = .int) (h : InInt64 t.magnitude) :
    NumeralYields ⟨.ofInt t.magnitude, t.span⟩ [t]
  | signed {m t : Token} (hm : m.kind = .sub) (hk : t.kind = .int)
      (hj : m.span.stop = t.span.start) (h : InInt64 (-t.magnitude)) :
    NumeralYields ⟨.ofInt (-t.magnitude), m.span.through t.span⟩ [m, t]

section
variable {β : Type}

inductive Listed (R : β → List Token → Prop) : List β → List Token → Prop
  | nil : Listed R [] []
  | singleton {y : β} {ts : List Token} (h : R y ts) : Listed R [y] ts
  | cons {y z : β} {ys : List β} {ts us : List Token} {comma : Token} (h : R y ts)
      (hc : comma.kind = .comma) (hrest : Listed R (z :: ys) us) :
    Listed R (y :: z :: ys) (ts ++ comma :: us)

inductive BracketedYields (R : β → List Token → Prop) : Bracketed β → List Token → Prop
  | mk {opening closing : Token} {ys : List β} {ts : List Token} (ho : opening.kind = .openSquare)
      (hc : closing.kind = .closeSquare) (h : Listed R ys ts) :
    BracketedYields R ⟨ys, opening.span.through closing.span⟩ (opening :: (ts ++ [closing]))

end

/-! ## Expressions -/

mutual

inductive OperandYields : Operand → List Token → Prop
  | number {n : Located Int64} {ts : List Token} (h : NumeralYields n ts) :
    OperandYields (.number n) ts
  | symbol {t : Token} (h : t.kind = .name) : OperandYields (.symbol ⟨t.lexeme, t.span⟩) [t]
  | call {c : Application Operand} {ts : List Token} (h : CallYields c ts) :
    OperandYields (.call c) ts
  | matrix {m : Bracketed (Bracketed (Infix Operand))} {ts : List Token}
      (h : BracketedYields (BracketedYields (ExpressionYields .element)) m ts) :
    OperandYields (.matrix m) ts

inductive CallYields : Application Operand → List Token → Prop
  | mk {name opening closing : Token} {args : List (Infix Operand)} {ts : List Token}
      (hn : name.kind = .name) (ho : opening.kind = .openParen) (hc : closing.kind = .closeParen)
      (h : Listed (ExpressionYields .argument) args ts) :
    CallYields ⟨⟨name.lexeme, name.span⟩, args, name.span.through closing.span,
      opening.span.through closing.span⟩ (name :: opening :: (ts ++ [closing]))

inductive ExpressionYields : Ending → Infix Operand → List Token → Prop
  | mk {ends : Ending} {first : Item Operand} {items : List (Item Operand)} {ts : List Token}
      (h : ItemsYield ends 0 .operand (first :: items) ts) :
    ExpressionYields ends
      ⟨first :: items, first.span.through (items.getLastD first).span⟩ ts

/-- Items that are read with `depth` parentheses open and `slot` the first of them. -/
inductive ItemsYield : Ending → Nat → Slot → List (Item Operand) → List Token → Prop
  | nil {ends : Ending} {slot : Slot} : ItemsYield ends 0 slot [] []
  | operand {ends : Ending} {depth : Nat} {slot : Slot} {x : Operand}
      {items : List (Item Operand)} {ts us : List Token} (hslot : slot ≠ .operator)
      (hflat : ends = .element → ∀ m, x ≠ .matrix m) (hx : OperandYields x ts)
      (h : ItemsYield ends depth .operator items us) :
    ItemsYield ends depth slot (.operand x :: items) (ts ++ us)
  | opening {ends : Ending} {depth : Nat} {slot : Slot} {t : Token}
      {items : List (Item Operand)} {ts : List Token} (hk : t.kind = .openParen)
      (hslot : slot ≠ .operator) (h : ItemsYield ends (depth + 1) .first items ts) :
    ItemsYield ends depth slot (.opening t.span :: items) (t :: ts)
  | closing {ends : Ending} {depth : Nat} {slot : Slot} {t : Token}
      {items : List (Item Operand)} {ts : List Token} (hk : t.kind = .closeParen)
      (hslot : slot ≠ .first) (h : ItemsYield ends depth .operator items ts) :
    ItemsYield ends (depth + 1) slot (.closing t.span :: items) (t :: ts)
  | unary {ends : Ending} {depth : Nat} {slot : Slot} {op : UnaryOp} {t : Token}
      {items : List (Item Operand)} {ts : List Token} (hk : t.kind = op.kind)
      (hslot : slot ≠ .operator) (hj : op = .neg → ¬ t.Joins .int ts)
      (h : ItemsYield ends depth .operand items ts) :
    ItemsYield ends depth slot (.unary ⟨op, t.span⟩ :: items) (t :: ts)
  | binary {ends : Ending} {depth : Nat} {slot : Slot} {op : BinaryOp} {t : Token}
      {items : List (Item Operand)} {ts : List Token} (hk : t.kind = op.kind)
      (hslot : op.looksUnary → slot = .operator) (h : ItemsYield ends depth .operand items ts) :
    ItemsYield ends depth slot (.binary ⟨op, t.span⟩ :: items) (t :: ts)

end

abbrev RowYields : Row → List Token → Prop := BracketedYields (ExpressionYields .element)

abbrev MatrixYields : MatrixLiteral → List Token → Prop := BracketedYields RowYields

/-! ## Statements -/

inductive DeclarationYields : Declaration → List Token → Prop
  | mk {keyword name assign semicolon : Token} {value : Expression} {ts : List Token}
      (hl : keyword.kind = .letKeyword) (hn : name.kind = .name) (ha : assign.kind = .assign)
      (hs : semicolon.kind = .semicolon) (h : ExpressionYields .semicolon value ts) :
    DeclarationYields ⟨⟨name.lexeme, name.span⟩, value, keyword.span.through semicolon.span⟩
      (keyword :: name :: assign :: (ts ++ [semicolon]))

inductive StatementYields : Statement → List Token → Prop
  | declaration {d : Declaration} {ts : List Token} (h : DeclarationYields d ts) :
    StatementYields (.declaration d) ts
  | call {c : Call} {ts : List Token} {semicolon : Token} (h : CallYields c ts)
      (hs : semicolon.kind = .semicolon) : StatementYields (.call c) (ts ++ [semicolon])

inductive ScriptYields : List Statement → List Token → Prop
  | nil : ScriptYields [] []
  | skip {script : List Statement} {ts : List Token} {semicolon : Token}
      (hs : semicolon.kind = .semicolon) (h : ScriptYields script ts) :
    ScriptYields script (semicolon :: ts)
  | cons {s : Statement} {script : List Statement} {ts us : List Token} (hs : StatementYields s ts)
      (h : ScriptYields script us) : ScriptYields (s :: script) (ts ++ us)

end MatrixScript
