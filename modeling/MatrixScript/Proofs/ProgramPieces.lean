import MatrixScript.Proofs.TokensRead
import MatrixScript.Proofs.JoinedScripts
import MatrixScript.Proofs.RereadOperands

/-!
# What a program is made of

The pieces of a text are its tokens without blanks and places, numbers read with the sign that
touches them.  A program that was parsed has the pieces of its text, in the same order, and no
others.
-/

namespace MatrixScript

variable {before after : TokenKind} {t : Token} {ts us : List Token}

/-! ## Pieces of a text -/

inductive Piece
  | number (n : Int)
  | name (s : String)
  | mark (kind : TokenKind)
deriving DecidableEq, Repr

/-- After such a token a sign is an operator and stands apart from the digits that it touches. -/
def TokenKind.endsOperand : TokenKind → Bool
  | .int | .name | .closeParen | .closeSquare => true
  | _ => false

instance (t : Token) (kind : TokenKind) (ts : List Token) : Decidable (t.Joins kind ts) :=
  match ts with
  | [] => isFalse fun ⟨_, hu, _⟩ => by cases hu
  | u :: _ => decidable_of_iff (u.kind = kind ∧ t.span.stop = u.span.start) (by simp [Token.Joins])

def Fuses (before : TokenKind) (t : Token) (ts : List Token) : Prop :=
  t.kind = .sub ∧ before.endsOperand = false ∧ t.Joins .int ts

instance (before : TokenKind) (t : Token) (ts : List Token) : Decidable (Fuses before t ts) :=
  inferInstanceAs (Decidable (_ ∧ _ ∧ _))

def Stray (before : TokenKind) (t : Token) : Prop := before = .semicolon ∧ t.kind = .semicolon

instance (before : TokenKind) (t : Token) : Decidable (Stray before t) :=
  inferInstanceAs (Decidable (_ ∧ _))

def Token.piece (sign : Int) (t : Token) : Piece :=
  match t.kind with
  | .int => .number (sign * t.magnitude)
  | .name => .name t.lexeme
  | kind => .mark kind

/-- The pieces of tokens that stand after one of the kind `before`; `sign` is that of the first
token. -/
def pieces (before : TokenKind) (sign : Int) : List Token → List Piece
  | [] => []
  | t :: ts =>
    if Stray before t then pieces before 1 ts
    else if Fuses before t ts then pieces .sub (-1) ts
    else t.piece sign :: pieces t.kind 1 ts

theorem pieces_cons (sign : Int) (hstray : ¬ Stray before t) (hfuses : ¬ Fuses before t ts) :
    pieces before sign (t :: ts) = t.piece sign :: pieces t.kind 1 ts := by
  rw [pieces, if_neg hstray, if_neg hfuses]

theorem piece_of_kind {kind : TokenKind} (sign : Int) (hk : t.kind = kind)
    (hint : kind ≠ .int) (hname : kind ≠ .name) : t.piece sign = .mark kind := by
  subst hk
  unfold Token.piece
  split
  · exact absurd ‹_› hint
  · exact absurd ‹_› hname
  · rfl

/-! ## Pieces of a program -/

def separated : List (List Piece) → List Piece
  | [] => []
  | [ps] => ps
  | ps :: rest => ps ++ .mark .comma :: separated rest

mutual

def Operand.pieces : Operand → List Piece
  | .number n => [.number n.value.toInt]
  | .symbol s => [.name s.value]
  | .call c => callPieces c
  | .matrix m => matrixPieces m

def callPieces : Application Operand → List Piece
  | ⟨name, args, _, _⟩ =>
    .name name.value :: .mark .openParen :: (separated (allPieces args) ++ [.mark .closeParen])

def matrixPieces : Bracketed (Bracketed (Infix Operand)) → List Piece
  | ⟨rows, _⟩ => .mark .openSquare :: (separated (rowsPieces rows) ++ [.mark .closeSquare])

def rowsPieces : List (Bracketed (Infix Operand)) → List (List Piece)
  | [] => []
  | row :: rows => rowPieces row :: rowsPieces rows

def rowPieces : Bracketed (Infix Operand) → List Piece
  | ⟨elements, _⟩ => .mark .openSquare :: (separated (allPieces elements) ++ [.mark .closeSquare])

def allPieces : List (Infix Operand) → List (List Piece)
  | [] => []
  | e :: es => expressionPieces e :: allPieces es

def expressionPieces : Infix Operand → List Piece
  | ⟨items, _⟩ => itemsPieces items

def itemsPieces : List (Item Operand) → List Piece
  | [] => []
  | item :: items => itemPieces item ++ itemsPieces items

def itemPieces : Item Operand → List Piece
  | .operand x => x.pieces
  | .binary op => [.mark op.value.kind]
  | .unary op => [.mark op.value.kind]
  | .opening _ => [.mark .openParen]
  | .closing _ => [.mark .closeParen]

end

def Statement.pieces : Statement → List Piece
  | .declaration d =>
    .mark .letKeyword :: .name d.name.value :: .mark .assign ::
      (expressionPieces d.value ++ [.mark .semicolon])
  | .call c => callPieces c ++ [.mark .semicolon]

theorem allPieces_eq_map (es : List Expression) : allPieces es = es.map expressionPieces := by
  induction es with
  | nil => rfl
  | cons e es ih => rw [allPieces, ih, List.map_cons]

theorem rowsPieces_eq_map (rows : List Row) : rowsPieces rows = rows.map rowPieces := by
  induction rows with
  | nil => rfl
  | cons row rows ih => rw [rowsPieces, ih, List.map_cons]

/-! ## Tokens that spell pieces -/

/-- Between a token of the kind `before` and whatever comes next, the tokens are these pieces; the
last token is of the kind `after`. -/
def Spells (before : TokenKind) (ts : List Token) (ps : List Piece) (after : TokenKind) : Prop :=
  ∀ rest, pieces before 1 (ts ++ rest) = ps ++ pieces after 1 rest

namespace Spells

variable {ps qs : List Piece}

theorem nil : Spells before [] [] before := fun _ => rfl

theorem append {between : TokenKind} (hts : Spells before ts ps between)
    (hus : Spells between us qs after) : Spells before (ts ++ us) (ps ++ qs) after := by
  intro rest
  rw [List.append_assoc, hts, hus, List.append_assoc]

theorem cons (hstray : ¬ Stray before t) (hfuses : ∀ rest, ¬ Fuses before t (ts ++ rest))
    (h : Spells t.kind ts ps after) : Spells before (t :: ts) (t.piece 1 :: ps) after := by
  intro rest
  rw [List.cons_append, pieces_cons 1 hstray (hfuses rest), h, List.cons_append]

theorem apart {kind : TokenKind} (hk : t.kind = kind) (hword : kind ∉ [TokenKind.int, .name])
    (hstray : before = .semicolon → kind ≠ .semicolon)
    (hapart : kind = .sub → ∀ rest, ¬ Fuses before t (ts ++ rest)) (h : Spells kind ts ps after) :
    Spells before (t :: ts) (.mark kind :: ps) after := by
  subst hk
  simp only [List.mem_cons, List.not_mem_nil, or_false, not_or] at hword
  rw [← piece_of_kind 1 rfl hword.1 hword.2]
  exact .cons (fun h => hstray h.1 h.2) (fun rest h => hapart h.1 rest h) h

theorem mark {kind : TokenKind} (hk : t.kind = kind)
    (hplain : kind ∉ [TokenKind.int, .name, .sub, .semicolon]) (h : Spells kind ts ps after) :
    Spells before (t :: ts) (.mark kind :: ps) after := by
  simp only [List.mem_cons, List.not_mem_nil, or_false, not_or] at hplain
  obtain ⟨hint, hname, hsub, hsemicolon⟩ := hplain
  exact .apart hk (by simp [hint, hname]) (fun _ => hsemicolon) (fun h => absurd h hsub) h

theorem digits (hk : t.kind = .int) (h : Spells .int ts ps after) :
    Spells before (t :: ts) (.number t.magnitude :: ps) after := by
  have hpiece : t.piece 1 = .number t.magnitude := by simp [Token.piece, hk]
  rw [← hpiece]
  exact .cons (fun h => by simp [Stray, hk] at h) (fun _ h => by simp [Fuses, hk] at h) (hk ▸ h)

theorem name (hk : t.kind = .name) (h : Spells .name ts ps after) :
    Spells before (t :: ts) (.name t.lexeme :: ps) after := by
  have hpiece : t.piece 1 = .name t.lexeme := by simp [Token.piece, hk]
  rw [← hpiece]
  exact .cons (fun h => by simp [Stray, hk] at h) (fun _ h => by simp [Fuses, hk] at h) (hk ▸ h)

end Spells

/-! ## Operands and what stands before them -/

def Slot.Follows (slot : Slot) (before : TokenKind) : Prop :=
  before ≠ .semicolon ∧ (before.endsOperand = true ↔ slot = .operator)

instance (slot : Slot) (before : TokenKind) : Decidable (slot.Follows before) :=
  inferInstanceAs (Decidable (_ ∧ _))

namespace Slot.Follows

variable {slot : Slot}

theorem operator (h : before.endsOperand = true) : Slot.operator.Follows before := by
  constructor
  · rintro rfl
    cases h
  · simp [h]

theorem not_endsOperand (h : slot.Follows before) (hslot : slot ≠ .operator) :
    before.endsOperand = false := by
  rw [← Bool.not_eq_true, h.2]
  exact hslot

theorem not_word (h : Slot.operand.Follows before) : before ∉ [TokenKind.int, .name] := by
  have hfree := h.not_endsOperand (by decide)
  intro hword
  cases before <;> simp [TokenKind.endsOperand] at hfree hword

theorem unaryOp (op : UnaryOp) : Slot.operand.Follows op.kind := by cases op <;> decide

theorem binaryOp (op : BinaryOp) : Slot.operand.Follows op.kind := by cases op <;> decide

end Slot.Follows

def Operand.Spelled (x : Operand) : Prop :=
  ∀ ts before, OperandYields x ts → before.endsOperand = false →
    ∃ after, after.endsOperand = true ∧ Spells before ts x.pieces after

theorem NumeralYields.spells {n : Located Int64} (h : NumeralYields n ts)
    (hbefore : before.endsOperand = false) : Spells before ts [.number n.value.toInt] .int := by
  cases h with
  | @plain t hk hin =>
    rw [toInt_ofInt_of_inInt64 hin]
    exact .digits hk .nil
  | @signed m t hm hk hj hin =>
    intro rest
    have hpiece : t.piece (-1) = .number (-t.magnitude) := by simp [Token.piece, hk]
    have hstray : ¬ Stray before m := fun h => by simp [Stray, hm] at h
    have hfuses : Fuses before m (t :: rest) := ⟨hm, hbefore, t, rfl, hk, hj⟩
    have hdigits : pieces .sub (-1) (t :: rest) = .number (-t.magnitude) :: pieces .int 1 rest := by
      rw [pieces_cons (-1) (fun h => by cases h.1) (fun h => by simp [Fuses, hk] at h), hpiece, hk]
    rw [toInt_ofInt_of_inInt64 hin, List.cons_append, List.singleton_append, pieces,
      if_neg hstray, if_pos hfuses, hdigits]
    rfl

/-! ## Up to the end of an expression -/

variable {ends : Ending}

def SpellsUntil (ends : Ending) (before : TokenKind) (ts : List Token) (ps : List Piece) : Prop :=
  ∀ t kind, t.kind = kind → ends.stopsAt kind = true →
    Spells before (ts ++ [t]) (ps ++ [.mark kind]) kind

namespace SpellsUntil

variable {ps qs : List Piece}

theorem nil (hbefore : before ≠ .semicolon) : SpellsUntil ends before [] [] := by
  intro t kind hk hstop
  refine .apart hk ?_ (fun h => absurd h hbefore) (fun hsub => ?_) .nil
  · cases ends <;> cases kind <;> first | decide | cases hstop
  · subst hsub
    cases ends <;> cases hstop

theorem prepend {between : TokenKind} (hts : Spells before ts ps between)
    (hus : SpellsUntil ends between us qs) : SpellsUntil ends before (ts ++ us) (ps ++ qs) := by
  intro t kind hk hstop
  rw [List.append_assoc, List.append_assoc]
  exact hts.append (hus t kind hk hstop)

theorem of_spells (h : Spells before ts ps after) (hafter : after ≠ .semicolon) :
    SpellsUntil ends before ts ps := by
  simpa using prepend h (nil hafter)

theorem apart {kind : TokenKind} (hk : t.kind = kind) (hword : kind ∉ [TokenKind.int, .name])
    (hsemicolon : kind ≠ .semicolon)
    (hapart : kind = .sub → before.endsOperand = true ∨ ¬ t.Joins .int ts)
    (h : SpellsUntil ends kind ts ps) : SpellsUntil ends before (t :: ts) (.mark kind :: ps) := by
  intro u kind' hk' hstop
  refine .apart hk hword (fun _ => hsemicolon) (fun hsub rest hfuses => ?_) (h u kind' hk' hstop)
  obtain ⟨-, hfree, v, hv, hint, hstart⟩ := hfuses
  rcases hapart hsub with hends | hjoins
  · exact Bool.false_ne_true (hfree.symm.trans hends)
  · cases ts with
    | nil =>
      -- the token that ends the expression is no number
      cases hv
      rw [← hk', hint] at hstop
      cases ends <;> cases hstop
    | cons w ts => exact hjoins ⟨v, hv, hint, hstart⟩

theorem mark {kind : TokenKind} (hk : t.kind = kind)
    (hplain : kind ∉ [TokenKind.int, .name, .sub, .semicolon]) (h : SpellsUntil ends kind ts ps) :
    SpellsUntil ends before (t :: ts) (.mark kind :: ps) :=
  fun u kind' hk' hstop => .mark hk hplain (h u kind' hk' hstop)

end SpellsUntil

theorem ItemsYield.spells {depth : Nat} {slot : Slot} {items : List (Item Operand)}
    (h : ItemsYield ends depth slot items ts) (hx : ∀ x, .operand x ∈ items → x.Spelled)
    (hbefore : slot.Follows before) : SpellsUntil ends before ts (itemsPieces items) := by
  -- what stands before an item tells which slot it is in, and so whether a sign can be fused
  induction items generalizing depth slot ts before with
  | nil =>
    cases h
    exact .nil hbefore.1
  | cons item items ih =>
    have hrest {depth : Nat} {slot : Slot} {us : List Token} {kind : TokenKind}
        (h : ItemsYield ends depth slot items us) (hslot : slot.Follows kind) :=
      ih h (fun x hmem => hx x (List.mem_cons_of_mem _ hmem)) hslot
    cases h with
    | operand hslot _ hyields h =>
      obtain ⟨after, hafter, hspells⟩ :=
        hx _ List.mem_cons_self _ _ hyields (hbefore.not_endsOperand hslot)
      exact .prepend hspells (hrest h (.operator hafter))
    | opening hk _ h => exact .mark hk (by decide) (hrest h (by decide))
    | closing hk _ h => exact .mark hk (by decide) (hrest h (by decide))
    | @unary _ _ _ op _ _ us hk hslot hj h =>
      have hafter := Slot.Follows.unaryOp op
      refine .apart hk hafter.not_word hafter.1 (fun hsub => .inr (hj ?_)) (hrest h hafter)
      cases op with
      | pos => cases hsub
      | neg => rfl
    | @binary _ _ _ op _ _ us hk hslot h =>
      have hafter := Slot.Follows.binaryOp op
      refine .apart hk hafter.not_word hafter.1 (fun hsub => .inl ?_) (hrest h hafter)
      cases op with
      | sub => exact hbefore.2.mpr (hslot rfl)
      | _ => cases hsub

theorem ExpressionYields.spells_of {e : Expression} (h : ExpressionYields ends e ts)
    (hx : ∀ x, .operand x ∈ e.items → x.Spelled) (hbefore : Slot.operand.Follows before) :
    SpellsUntil ends before ts (expressionPieces e) := by
  obtain ⟨h⟩ := h
  exact h.spells hx hbefore

/-! ## Lists -/

section
variable {β : Type} {R : β → List Token → Prop} {f : β → List Piece}

theorem Listed.spells {ys : List β} (h : Listed R ys ts) (hcomma : ends.stopsAt .comma = true)
    (hR : ∀ y ∈ ys, ∀ us before, R y us → Slot.operand.Follows before →
      SpellsUntil ends before us (f y)) (hbefore : Slot.operand.Follows before) :
    SpellsUntil ends before ts (separated (ys.map f)) := by
  induction h generalizing before with
  | nil => exact .nil hbefore.1
  | singleton h => exact hR _ List.mem_cons_self _ _ h hbefore
  | @cons y z ys ts us comma h hc _ ih =>
    obtain ⟨hy, hys⟩ := List.forall_mem_cons.mp hR
    have hfirst := hy ts before h hbefore comma .comma hc hcomma
    simpa [separated] using SpellsUntil.prepend hfirst (ih hys (by decide))

theorem BracketedYields.spells {m : Bracketed β} (h : BracketedYields R m ts)
    (hR : ∀ y ∈ m.items, ∀ us before, R y us → Slot.operand.Follows before →
      SpellsUntil .element before us (f y)) :
    Spells before ts (.mark .openSquare :: (separated (m.items.map f) ++ [.mark .closeSquare]))
      .closeSquare := by
  obtain ⟨ho, hc, hys⟩ := h
  exact .mark ho (by decide) (hys.spells rfl hR (by decide) _ _ hc rfl)

end

/-! ## Calls and matrices -/

theorem CallYields.spells {c : Call} (h : CallYields c ts)
    (hx : ∀ e ∈ c.args, ∀ x, .operand x ∈ e.items → x.Spelled) :
    Spells before ts (callPieces c) .closeParen := by
  obtain ⟨hn, ho, hc, hargs⟩ := h
  rw [callPieces, allPieces_eq_map]
  refine .name hn (.mark ho (by decide) ?_)
  exact hargs.spells rfl (fun e he us before h hbefore => h.spells_of (hx e he) hbefore)
    (by decide) _ _ hc rfl

theorem Operand.spelled (x : Operand) : x.Spelled := by
  refine Operand.induct (P := Operand.Spelled) (fun x ih => ?_) x
  intro ts before h hbefore
  cases h with
  | number h => exact ⟨.int, rfl, h.spells hbefore⟩
  | symbol hk => exact ⟨.name, rfl, .name hk .nil⟩
  | call h => exact ⟨.closeParen, rfl, h.spells ih⟩
  | @matrix m _ h =>
    obtain ⟨rows, span⟩ := m
    rw [Operand.pieces, matrixPieces, rowsPieces_eq_map]
    refine ⟨.closeSquare, rfl, h.spells fun row hrow us before h hbefore => ?_⟩
    obtain ⟨elements, span⟩ := row
    rw [rowPieces, allPieces_eq_map]
    refine .of_spells (h.spells fun e he vs before h hbefore => h.spells_of (ih e ?_) hbefore) (by decide)
    exact List.mem_flatMap.mpr ⟨_, hrow, he⟩

theorem ExpressionYields.spells {e : Expression} (h : ExpressionYields ends e ts)
    (hbefore : Slot.operand.Follows before) : SpellsUntil ends before ts (expressionPieces e) :=
  h.spells_of (fun x _ => x.spelled) hbefore

/-! ## Statements -/

theorem StatementYields.spells {s : Statement} (h : StatementYields s ts) :
    Spells .semicolon ts s.pieces .semicolon := by
  cases h with
  | declaration h =>
    obtain ⟨hl, hn, ha, hs, hvalue⟩ := h
    refine .mark hl (by decide) (.name hn (.mark ha (by decide) ?_))
    exact hvalue.spells (by decide) _ _ hs rfl
  | call h hs =>
    have hcall : SpellsUntil .semicolon .semicolon _ (callPieces _) :=
      .of_spells (h.spells fun e _ x _ => x.spelled) (by decide)
    exact hcall _ _ hs rfl

theorem ScriptYields.pieces_eq {script : List Statement} (h : ScriptYields script ts) :
    pieces .semicolon 1 ts = script.flatMap Statement.pieces := by
  induction h with
  | nil => rfl
  | skip hs h ih => rw [pieces, if_pos ⟨rfl, hs⟩, ih]
  | cons hs h ih => rw [hs.spells, ih, List.flatMap_cons]

/-- A text that is a program has its pieces in order, but for semicolons that end nothing. -/
theorem pieces_of_parseScript {text : String} {script : List Statement}
    (h : parseScript text = .ok script) :
    pieces .semicolon 1 (solid (tokenize text)) = script.flatMap Statement.pieces :=
  (scriptYields_of_parseScript h).pieces_eq

/-- A minus sign after an operand, one that touches digits and one that does not. -/
theorem pieces_of_parseScript_of_signs :
    ∃ script, parseScript ";let x = 02 -3 * -4;; f([[-5, - 6]], (x));" = .ok script ∧
      script.flatMap Statement.pieces =
        [.mark .letKeyword, .name "x", .mark .assign, .number 2, .mark .sub, .number 3, .mark .mul,
          .number (-4), .mark .semicolon, .name "f", .mark .openParen, .mark .openSquare,
          .mark .openSquare, .number (-5), .mark .comma, .mark .sub, .number 6, .mark .closeSquare,
          .mark .closeSquare, .mark .comma, .mark .openParen, .name "x", .mark .closeParen,
          .mark .closeParen, .mark .semicolon] := by
  obtain ⟨script, h⟩ := exists_parseScript_of_isOk
    (by decide +kernel : (parseScript ";let x = 02 -3 * -4;; f([[-5, - 6]], (x));").isOk = true)
  exact ⟨script, h, (pieces_of_parseScript h).symm.trans (by decide +kernel)⟩

end MatrixScript
