import MatrixScript.Proofs.ParsedPrograms
import MatrixScript.Proofs.Words

/-!
# Legible programs

A program is legible if its names are names, matrices are not nested, and a `+` or `-` is a binary
operator only after a term.  Both the programs that are built from the grammar and those that the
parser returns are legible.
-/

namespace MatrixScript

variable {ω : Type}

/-! ## Signs in their place -/

def Item.PlacedAt (slot : Slot) : Item ω → Prop
  | .binary op => op.value.looksUnary → slot = .operator
  | .operand _ | .unary _ | .opening _ | .closing _ => True

def SignsPlaced : Slot → List (Item ω) → Prop
  | _, [] => True
  | slot, item :: items => item.PlacedAt slot ∧ SignsPlaced item.slotAfter items

theorem signsPlaced_of_filled {slot : Slot} {items : List (Item ω)}
    (h : Filled (slot ≠ .operator) items) : SignsPlaced slot items := by
  induction items generalizing slot with
  | nil => trivial
  | cons item items ih =>
    obtain ⟨hitem, hrest⟩ := h
    rw [← Item.slotAfter_ne_operator] at hrest
    refine ⟨?_, ih hrest⟩
    cases item with
    | binary op => intro _; simpa using hitem
    | operand x => trivial
    | unary op => trivial
    | opening span => trivial
    | closing span => trivial

/-! ## Sentences as read -/

mutual

theorem IsExpression.reads_append {xs : List (Item ω)} (h : IsExpression xs) {depth : Nat}
    {slot : Slot} (hs : slot ≠ .operator) {rest : List (Item ω)} (hr : Reads depth .operator rest) :
    Reads depth slot (xs ++ rest) := by
  match h with
  | .term h => exact h.reads_append hs hr
  | .binary op hx hy =>
    rw [List.append_assoc]
    exact hx.reads_append hs (.binary op (hy.reads_append (by simp) hr))

theorem IsTerm.reads_append {xs : List (Item ω)} (h : IsTerm xs) {depth : Nat}
    {slot : Slot} (hs : slot ≠ .operator) {rest : List (Item ω)} (hr : Reads depth .operator rest) :
    Reads depth slot (xs ++ rest) := by
  match h with
  | .operand x => exact .operand x hs hr
  | .sign op h => exact .unary op hs (h.reads_append (by simp) hr)
  | .group opening closing h =>
    rw [List.cons_append, List.append_assoc]
    exact .opening opening hs (h.reads_append (by simp) (.closing closing (by simp) hr))

end

theorem IsExpression.reads {xs : List (Item ω)} (h : IsExpression xs) : Reads 0 .operand xs := by
  have hr : Reads 0 .operand (xs ++ []) := h.reads_append (by simp) (.nil (by simp))
  rwa [List.append_nil] at hr

theorem IsExpression.ne_nil {xs : List (Item ω)} (h : IsExpression xs) : xs ≠ [] := by
  obtain ⟨t, -, rfl⟩ := h.exists_tree
  cases t <;> simp [Tree.items]

/-! ## Names and matrices -/

def holdsMatrix (items : List (Item Operand)) : Prop := ∃ m, .operand (.matrix m) ∈ items

/-- Names are names, and no element of a matrix holds another matrix. -/
def Operand.Regular : Operand → Prop
  | .number _ => True
  | .symbol s => IsName s.value
  | .call c => IsName c.name.value
  | .matrix m => ∀ row ∈ m.items, ∀ e ∈ row.items, ¬ holdsMatrix e.items

structure Neat (e : Expression) : Prop where
  placed : SignsPlaced .operand e.items
  regular : ∀ x, .operand x ∈ e.items → x.Regular

structure Legible (e : Expression) : Prop extends Neat e where
  reads : Reads 0 .operand e.items
  ne_nil : e.items ≠ []

namespace Statement

def name : Statement → String
  | .declaration d => d.name.value
  | .call c => c.name.value

structure Legible (s : Statement) : Prop where
  name : IsName s.name
  inside : ∀ e ∈ s.expressions, MatrixScript.Legible e

structure FromGrammar (s : Statement) : Prop where
  name : IsName s.name
  sentences : ∀ e ∈ s.expressions, IsExpression e.items
  regular : ∀ e ∈ s.expressions, ∀ x, .operand x ∈ e.items → x.Regular

theorem FromGrammar.legible {s : Statement} (h : s.FromGrammar) : s.Legible where
  name := h.name
  inside e he :=
    have hs := h.sentences e he
    { placed := signsPlaced_of_filled hs.filled
      regular := h.regular e he
      reads := hs.reads
      ne_nil := hs.ne_nil }

end Statement

/-! ## What the parser returns -/

namespace Cursor

def Spelled (c : Cursor) : Prop := ∀ t ∈ c.ahead, t.word.Valid

theorem spelled_ofText (text : String) : (ofText text).Spelled := valid_of_mem_tokenize

theorem Takes.spelled {c c' : Cursor} {t : Token} (h : Takes c t c') (hc : c.Spelled) :
    t.word.Valid ∧ c'.Spelled := by
  obtain ⟨blanks, -, hahead⟩ := h.ahead
  unfold Spelled at hc
  rw [hahead] at hc
  exact List.forall_mem_cons.mp (List.forall_mem_append.mp hc).2

end Cursor

namespace Parse

open Cursor

variable {α : Type} {c : Cursor}

theorem returns_token (kind : TokenKind) (hc : c.Spelled) :
    Returns (token kind) c fun t c' => (t.kind = kind ∧ t.word.Valid) ∧ c'.Spelled :=
  (ends_token fun _ _ => trivial).mono fun _ _ ⟨hk, ht⟩ =>
    ⟨⟨hk, (ht.spelled hc).1⟩, (ht.spelled hc).2⟩

theorem Accepted?.spelled {here : Prop} {t : Option Token} {c' : Cursor}
    (h : Accepted? c here t c') (hc : c.Spelled) :
    c'.Spelled ∧ ∀ u, t = some u → u.word.Valid := by
  rcases h with ⟨rfl, rfl, -⟩ | ⟨u, rfl, -, hu⟩
  · exact ⟨hc, fun u hu => by cases hu⟩
  · exact ⟨(hu.spelled hc).2, fun v hv => by cases hv; exact (hu.spelled hc).1⟩

theorem returns_commaSeparated {item : Parse α} {R : α → Prop}
    (hitem : ∀ c, c.Spelled → Returns item c fun x c' => R x ∧ c'.Spelled) (fuel : Nat)
    (hc : c.Spelled) :
    Returns (commaSeparated item fuel) c fun xs c' => (∀ x ∈ xs, R x) ∧ c'.Spelled := by
  induction fuel generalizing c with
  | zero => exact ends_failHere.mpr trivial
  | succ fuel ih =>
    unfold commaSeparated
    refine (hitem c hc).bind ?_
    intro x c₁ hx
    obtain ⟨hx, h₁⟩ := hx
    refine ends_accept.bind fun comma c₂ hcomma => ?_
    have h₂ := (hcomma.spelled h₁).1
    split
    · refine (ih h₂).bind ?_
      intro xs c₃ hxs
      obtain ⟨hxs, h₃⟩ := hxs
      exact ⟨List.forall_mem_cons.mpr ⟨hx, hxs⟩, h₃⟩
    · exact ⟨List.forall_mem_singleton.mpr hx, h₂⟩

theorem returns_bracketed {item : Parse α} {R : α → Prop}
    (hitem : ∀ c, c.Spelled → Returns item c fun x c' => R x ∧ c'.Spelled) (hc : c.Spelled) :
    Returns (bracketed item) c fun xs c' => (∀ x ∈ xs.items, R x) ∧ c'.Spelled := by
  unfold bracketed
  refine (returns_token .openSquare hc).bind ?_
  intro opening c₁ h₁
  obtain ⟨-, h₁⟩ := h₁
  refine ends_accept.bind fun t c₂ ht => ?_
  have h₂ := (ht.spelled h₁).1
  cases t with
  | some closing => exact ⟨List.forall_mem_nil _, h₂⟩
  | none =>
    dsimp only
    rw [ends_bind, ends_bound]
    refine (returns_commaSeparated hitem _ h₂).bind ?_
    intro xs c₃ hxs
    obtain ⟨hxs, h₃⟩ := hxs
    refine ends_accept.bind fun t c₄ ht => ?_
    cases t with
    | some closing => exact ⟨hxs, (ht.spelled h₃).1⟩
    | none => exact trivial

theorem returns_numeral (hc : c.Spelled) : Returns numeral c fun _ c' => c'.Spelled := by
  refine ends_numeral_of (ends_acceptJoined.mono fun sign c₁ hsign => ?_)
  refine (returns_token .int (hsign.spelled hc).1).mono fun t c₂ ht => ?_
  exact ⟨fun _ _ _ => trivial, fun _ => trivial, fun _ => ht.2⟩

theorem returns_name (hc : c.Spelled) :
    Returns name c fun s c' => IsName s.value ∧ c'.Spelled := by
  unfold name
  refine (returns_token .name hc).bind ?_
  intro t c' ht
  obtain ⟨⟨hk, ht⟩, h'⟩ := ht
  refine ⟨?_, h'⟩
  rw [isName_iff_valid, ← hk]
  exact ht

/-! ## Operands -/

section
variable {nested : Ending → Parse Expression}

def ReadNeatly (ends : Ending) (e : Expression) : Prop :=
  (ends = .element → ¬ holdsMatrix e.items) ∧ ∀ e' ∈ withSubexpressions e, Neat e'

def ReadsNeatly (nested : Ending → Parse Expression) : Prop :=
  ∀ ends c, c.Spelled → Returns (nested ends) c fun e c' => ReadNeatly ends e ∧ c'.Spelled

theorem returns_callOf (hn : ReadsNeatly nested) {callee : Located String}
    (hname : IsName callee.value) (hc : c.Spelled) :
    Returns (callOf nested callee) c fun x c' =>
      (IsName x.name.value ∧ ∀ e ∈ callExpressions x, Neat e) ∧ c'.Spelled := by
  unfold callOf
  refine (returns_token .openParen hc).bind ?_
  intro opening c₁ h₁
  obtain ⟨-, h₁⟩ := h₁
  refine ends_accept.bind fun t c₂ ht => ?_
  have h₂ := (ht.spelled h₁).1
  cases t with
  | some closing => exact ⟨⟨hname, List.forall_mem_nil _⟩, h₂⟩
  | none =>
    dsimp only
    rw [ends_bind, ends_bound]
    refine (returns_commaSeparated (hn .argument) _ h₂).bind ?_
    intro args c₃ hargs
    obtain ⟨hargs, h₃⟩ := hargs
    refine ends_accept.bind fun t c₄ ht => ?_
    cases t with
    | none => exact trivial
    | some closing =>
      refine ⟨⟨hname, fun e he => ?_⟩, (ht.spelled h₃).1⟩
      obtain ⟨arg, harg, he⟩ := mem_callExpressions.mp he
      exact (hargs arg harg).2 e he

theorem returns_rowOf (hn : ReadsNeatly nested) (hc : c.Spelled) :
    Returns (rowOf nested) c fun row c' =>
      (∀ e ∈ row.items, ReadNeatly .element e) ∧ c'.Spelled := by
  unfold rowOf
  rw [Returns, ends_attempt, ends_bind, ends_peekKind]
  split
  · exact returns_bracketed (hn .element) hc
  · trivial

theorem returns_matrixOf (hn : ReadsNeatly nested) (hc : c.Spelled) :
    Returns (matrixOf nested) c fun m c' =>
      ((Operand.matrix m).Regular ∧ ∀ e ∈ matrixExpressions m, Neat e) ∧ c'.Spelled := by
  unfold matrixOf
  rw [Returns, ends_attempt]
  refine (returns_bracketed (fun c hc => returns_rowOf hn hc) hc).mono ?_
  intro m c' hm
  obtain ⟨hm, h'⟩ := hm
  refine ⟨⟨fun row hrow e he => (hm row hrow e he).1 rfl, fun e he => ?_⟩, h'⟩
  obtain ⟨row, hrow, he⟩ := mem_matrixExpressions.mp he
  obtain ⟨element, helement, he⟩ := mem_rowExpressions.mp he
  exact (hm row hrow element helement).2 e he

structure OperandNeat (ends : Ending) (x : Operand) : Prop where
  flat : ends = .element → ∀ m, x ≠ .matrix m
  regular : x.Regular
  inside : ∀ e ∈ x.expressions, Neat e

theorem returns_operandOf (hn : ReadsNeatly nested) {ends : Ending}
    (hk : ends = .element → c.peekKind? ≠ some .openSquare) (hc : c.Spelled) :
    Returns (operandOf nested) c fun x c' => OperandNeat ends x ∧ c'.Spelled := by
  have hnumber : Returns (.number <$> numeral) c fun x c' => OperandNeat ends x ∧ c'.Spelled :=
    ends_map.mpr ((returns_numeral hc).mono fun n c' h' =>
      ⟨⟨fun _ m => by simp, trivial, List.forall_mem_nil _⟩, h'⟩)
  unfold operandOf
  rw [Returns, ends_bind, ends_peekKind]
  split
  · exact hnumber
  · exact hnumber
  · refine (returns_name hc).bind ?_
    intro symbol c₁ hname
    obtain ⟨hname, h₁⟩ := hname
    rw [ends_bind, ends_peekKind]
    split
    · refine ends_map.mpr ((returns_callOf hn hname h₁).mono ?_)
      intro x c' hx
      obtain ⟨⟨hx, hinside⟩, h'⟩ := hx
      exact ⟨⟨fun _ m => by simp, hx, hinside⟩, h'⟩
    · exact ⟨⟨fun _ m => by simp, hname, List.forall_mem_nil _⟩, h₁⟩
  · refine ends_map.mpr ?_
    by_cases hopen : c.peekKind? = some .openSquare
    · refine (returns_matrixOf hn hc).mono ?_
      intro m c' hm
      obtain ⟨⟨hregular, hinside⟩, h'⟩ := hm
      exact ⟨⟨fun hends => absurd hopen (hk hends), hregular, hinside⟩, h'⟩
    · -- a matrix begins with a bracket
      unfold matrixOf bracketed
      rw [ends_attempt]
      refine (ends_token (E := fun _ => True) fun _ _ => trivial).bind ?_
      intro t c' ht
      obtain ⟨ht, htakes⟩ := ht
      exact absurd (by rw [Cursor.peekKind?, htakes.peek?, Option.map_some, ht]) hopen

/-! ## Items -/

def Move.MadeAt (ends : Ending) (slot : Slot) (kind : TokenKind) : Move → Prop
  | .stop | .refuse _ _ => True
  | .operand => kind = .int ∨ kind = .name ∨ kind = .sub ∨ kind = .openSquare ∧ ends ≠ .element
  | .opening => kind = .openParen
  | .closing => kind = .closeParen
  | .unary op => kind = op.kind
  | .binary op => kind = op.kind ∧ (op.looksUnary → slot = .operator)

section
variable {ends : Ending} {groups : List Span} {slot : Slot} {t : Token}

theorem Move.madeAt_ofCursor {move : Move} (h : Move.ofCursor ends groups slot c = move)
    (hgo : ∀ cause spans, move ≠ .refuse cause spans) (hs : move ≠ .stop) :
    ∃ kind, c.peekKind? = some kind ∧ move.MadeAt ends slot kind := by
  cases Move.chosen_of_eq h with
  | stop => exact absurd rfl hs
  | refuse => exact absurd rfl (hgo _ _)
  | operand ht hslot hkind =>
    exact ⟨_, Cursor.peekKind?_of_mem ht, hkind.imp_right (Or.imp_right (Or.imp_left And.left))⟩
  | opening ht hslot hkind => exact ⟨_, Cursor.peekKind?_of_mem ht, hkind⟩
  | closing ht hslot hkind hgroups => exact ⟨_, Cursor.peekKind?_of_mem ht, hkind⟩
  | unary ht hslot hkind hjoined => exact ⟨_, Cursor.peekKind?_of_mem ht, hkind⟩
  | binary ht hkind hslot => exact ⟨_, Cursor.peekKind?_of_mem ht, hkind, hslot⟩

end

/-- Items of which the first has the given slot. -/
structure ItemsNeat (ends : Ending) (slot : Slot) (items : List (Item Operand)) : Prop where
  flat : ends = .element → ¬ holdsMatrix items
  placed : SignsPlaced slot items
  regular : ∀ x, .operand x ∈ items → x.Regular
  inside : ∀ e ∈ itemsExpressions items, Neat e

theorem itemsNeat_nil {ends : Ending} {slot : Slot} : ItemsNeat ends slot [] where
  flat _ := by simp [holdsMatrix]
  placed := trivial
  regular := by simp
  inside := List.forall_mem_nil _

theorem ItemsNeat.cons {ends : Ending} {slot : Slot} {item : Item Operand}
    {items : List (Item Operand)} (h : ItemsNeat ends item.slotAfter items)
    (hplaced : item.PlacedAt slot) (hx : ∀ x, item = .operand x → OperandNeat ends x) :
    ItemsNeat ends slot (item :: items) where
  flat hends := by
    rintro ⟨m, hm⟩
    rcases List.mem_cons.mp hm with hm | hm
    · exact (hx _ hm.symm).flat hends m rfl
    · exact h.flat hends ⟨m, hm⟩
  placed := ⟨hplaced, h.placed⟩
  regular x hmem := by
    rcases List.mem_cons.mp hmem with hmem | hmem
    · exact (hx x hmem.symm).regular
    · exact h.regular x hmem
  inside := by
    refine List.forall_mem_append.mpr ⟨?_, h.inside⟩
    cases item with
    | operand x => exact (hx x rfl).inside
    | binary op => exact List.forall_mem_nil _
    | unary op => exact List.forall_mem_nil _
    | opening span => exact List.forall_mem_nil _
    | closing span => exact List.forall_mem_nil _

theorem returns_cons {ends : Ending} {slot : Slot} {q : Parse α} {f : α → Item Operand}
    {p : α → Parse (List (Item Operand))}
    (hq : Returns q c fun x c' => ((f x).PlacedAt slot ∧
      ∀ y, f x = .operand y → OperandNeat ends y) ∧ c'.Spelled)
    (hp : ∀ x c', c'.Spelled →
      Returns (p x) c' fun items c'' => ItemsNeat ends (f x).slotAfter items ∧ c''.Spelled) :
    Returns (do let x ← q; return f x :: (← p x)) c fun items c' =>
      ItemsNeat ends slot items ∧ c'.Spelled := by
  refine hq.bind ?_
  intro x c₁ hx
  obtain ⟨⟨hplaced, hneat⟩, h₁⟩ := hx
  refine (hp x c₁ h₁).bind ?_
  intro items c₂ hitems
  exact ⟨hitems.1.cons hplaced hneat, hitems.2⟩

theorem returns_mark {ends : Ending} {slot : Slot} {f : Token → Item Operand} (hc : c.Spelled)
    (hplaced : ∀ t, (f t).PlacedAt slot) (hf : ∀ t y, f t ≠ .operand y) :
    Returns next c fun t c' => ((f t).PlacedAt slot ∧
      ∀ y, f t = .operand y → OperandNeat ends y) ∧ c'.Spelled := by
  refine (ends_next fun _ _ => trivial).mono ?_
  intro t c' ht
  exact ⟨⟨hplaced t, fun y hy => absurd hy (hf t y)⟩, (ht.spelled hc).2⟩

theorem returns_itemsOf (hn : ReadsNeatly nested) (ends : Ending) {fuel : Nat}
    {groups : List Span} {slot : Slot} (hc : c.Spelled) :
    Returns (itemsOf nested ends fuel groups slot) c fun items c' =>
      ItemsNeat ends slot items ∧ c'.Spelled := by
  induction fuel generalizing groups slot c with
  | zero => exact ends_failHere.mpr trivial
  | succ fuel ih =>
    unfold itemsOf
    rw [Returns, ends_bind, ends_get]
    cases hm : Move.ofCursor ends groups slot c with
    | stop => exact ⟨itemsNeat_nil, hc⟩
    | refuse cause spans => exact trivial
    | operand =>
      obtain ⟨kind, hkind, hmade⟩ := Move.madeAt_ofCursor hm (by simp) (by simp)
      have hopen : ends = .element → c.peekKind? ≠ some .openSquare := by
        intro hends hopen
        rw [hkind, Option.some_inj] at hopen
        subst hopen
        simp [Move.MadeAt, hends] at hmade
      refine returns_cons ((returns_operandOf hn hopen hc).mono ?_) fun x c₁ h₁ => ih h₁
      intro x c₁ hx
      refine ⟨⟨trivial, fun y hy => ?_⟩, hx.2⟩
      cases hy
      exact hx.1
    | opening =>
      exact returns_cons (returns_mark hc (by simp [Item.PlacedAt]) (by simp)) fun t c₁ h₁ => ih h₁
    | closing =>
      exact returns_cons (returns_mark hc (by simp [Item.PlacedAt]) (by simp)) fun t c₁ h₁ => ih h₁
    | unary op =>
      exact returns_cons (returns_mark hc (by simp [Item.PlacedAt]) (by simp)) fun t c₁ h₁ => ih h₁
    | binary op =>
      obtain ⟨kind, -, -, hslot⟩ := Move.madeAt_ofCursor hm (by simp) (by simp)
      exact returns_cons (returns_mark hc (fun t => hslot) (by simp)) fun t c₁ h₁ => ih h₁

/-! ## Expressions and statements -/

theorem returns_expressionOf {ends : Ending} {p : Parse (List (Item Operand))}
    (hp : Returns p c fun items c' => ItemsNeat ends .operand items ∧ c'.Spelled) :
    Returns (expressionOf p) c fun e c' => ReadNeatly ends e ∧ c'.Spelled := by
  unfold expressionOf
  refine hp.bind ?_
  intro items c' hitems
  obtain ⟨hitems, h'⟩ := hitems
  cases items with
  | nil => exact ends_failHere.mpr trivial
  | cons first rest =>
    refine ⟨⟨hitems.flat, List.forall_mem_cons.mpr ⟨?_, hitems.inside⟩⟩, h'⟩
    exact ⟨hitems.placed, hitems.regular⟩

theorem readsNeatly_expressionAt (depth : Nat) : ReadsNeatly (expressionAt depth) := by
  induction depth with
  | zero => exact fun ends c hc => ends_failHere.mpr trivial
  | succ depth ih =>
    intro ends c hc
    unfold expressionAt
    rw [Returns, ends_bind, ends_bound]
    exact returns_expressionOf (returns_itemsOf ih ends hc)

theorem readsNeatly_expression : ReadsNeatly expression := by
  intro ends c hc
  unfold expression
  rw [Returns, ends_bind, ends_bound]
  exact readsNeatly_expressionAt _ ends c hc

/-- The parts of a statement that do not depend on where its parentheses are. -/
structure StatementNeat (s : Statement) : Prop where
  name : IsName s.name
  inside : ∀ e ∈ s.expressions, Neat e

theorem returns_semicolon (hc : c.Spelled) : Returns semicolon c fun _ c' => c'.Spelled := by
  unfold semicolon
  refine ends_accept.bind fun t c' ht => ?_
  cases t with
  | some t => exact (ht.spelled hc).1
  | none => exact trivial

theorem returns_declaration (hc : c.Spelled) :
    Returns declaration c fun d c' => StatementNeat (.declaration d) ∧ c'.Spelled := by
  unfold declaration
  rw [Returns, ends_attempt]
  refine (returns_token .letKeyword hc).bind ?_
  intro keyword c₁ h₁
  obtain ⟨-, h₁⟩ := h₁
  refine ends_accept.bind fun t c₂ ht => ?_
  obtain ⟨h₂, hvalid⟩ := ht.spelled h₁
  cases t with
  | none => exact ends_failHere.mpr trivial
  | some declared =>
    have hname : IsName declared.lexeme := by
      rcases ht with ⟨ht, -⟩ | ⟨u, hu, hkind, htakes⟩
      · cases ht
      · obtain rfl := Option.some.inj hu
        rw [Cursor.peekKind?, htakes.peek?, Option.map_some, Option.some_inj] at hkind
        rw [isName_iff_valid, ← hkind]
        exact hvalid _ rfl
    dsimp only
    refine ends_accept.bind fun t c₃ ht => ?_
    have h₃ := (ht.spelled h₂).1
    split
    · refine (readsNeatly_expression .semicolon c₃ h₃).bind ?_
      intro value c₄ hvalue
      obtain ⟨hvalue, h₄⟩ := hvalue
      exact (returns_semicolon h₄).bind fun s c₅ h₅ => ⟨⟨hname, hvalue.2⟩, h₅⟩
    · exact ends_failHere.mpr trivial

theorem returns_statement (hc : c.Spelled) :
    Returns statement c fun s c' => StatementNeat s ∧ c'.Spelled := by
  unfold statement
  rw [Returns, ends_attempt, ends_bind, ends_peekKind]
  split
  · exact ends_map.mpr (returns_declaration hc)
  · refine (returns_name hc).bind ?_
    intro callee c₁ hname
    obtain ⟨hname, h₁⟩ := hname
    rw [ends_bind, ends_peekKind]
    split
    · refine (returns_callOf readsNeatly_expression hname h₁).bind ?_
      intro x c₂ hx
      obtain ⟨hx, h₂⟩ := hx
      exact (returns_semicolon h₂).bind fun s c₃ h₃ => ⟨⟨hx.1, hx.2⟩, h₃⟩
    · exact trivial
  · exact ends_failHere.mpr trivial

theorem returns_statementsWithin (fuel : Nat) (hc : c.Spelled) :
    Returns (statementsWithin fuel) c fun script _ => ∀ s ∈ script, StatementNeat s := by
  induction fuel generalizing c with
  | zero => exact ends_failHere.mpr trivial
  | succ fuel ih =>
    unfold statementsWithin
    refine ends_accept.bind fun t c₁ ht => ?_
    have h₁ := (ht.spelled hc).1
    split
    · exact ih h₁
    · rw [ends_bind, ends_peekKind]
      split
      · exact List.forall_mem_nil _
      · refine (returns_statement h₁).bind ?_
        intro s c₂ hs
        obtain ⟨hs, h₂⟩ := hs
        exact (ih h₂).bind fun script c₃ hscript => List.forall_mem_cons.mpr ⟨hs, hscript⟩

end

end Parse

theorem statementNeat_of_parseScript {text : String} {script : List Statement}
    (h : parseScript text = .ok script) : ∀ s ∈ script, Parse.StatementNeat s := by
  unfold parseScript at h
  split at h
  · next hp =>
    cases h
    have hreturns : Parse.Returns Parse.statements (.ofText text) fun script _ =>
        ∀ s ∈ script, Parse.StatementNeat s := by
      unfold Parse.statements
      rw [Parse.Returns, Parse.ends_bind, Parse.ends_bound]
      exact Parse.returns_statementsWithin _ (Cursor.spelled_ofText text)
    exact hreturns.of_eq hp
  · cases h

theorem legible_of_parseScript {text : String} {script : List Statement}
    (h : parseScript text = .ok script) : ∀ s ∈ script, s.Legible := by
  intro s hs
  have hneat := statementNeat_of_parseScript h s hs
  have hread := statementRead_of_parseScript h s hs
  exact
    { name := hneat.name
      inside := fun e he =>
        { toNeat := hneat.inside e he
          reads := (hread.inside e he).reads
          ne_nil := (hread.inside e he).ne_nil } }

end MatrixScript
