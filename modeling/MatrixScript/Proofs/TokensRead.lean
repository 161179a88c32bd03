import MatrixScript.Proofs.TokenYields

/-!
# What is read from tokens

Whatever the parser returns yields the tokens that it has gone over.
-/

namespace MatrixScript

variable {text : String}

/-! ## Places of tokens -/

theorem le_of_mem_place {start : Nat} {ws : List Word} {t : Token} (h : t ∈ place start ws) :
    start ≤ t.span.start := by
  induction ws generalizing start with
  | nil => cases h
  | cons w ws ih =>
    rcases List.mem_cons.mp h with rfl | h
    · exact Nat.le_refl _
    · exact Nat.le_trans (Nat.le_add_right _ _) (ih h)

theorem exists_place_of_suffix {tokens : List Token} (h : tokens <:+ tokenize text) :
    ∃ start ws, (∀ w ∈ ws, w.Valid) ∧ tokens = place start ws := by
  rw [tokenize_eq_place] at h
  obtain ⟨start, ws, hws, rfl⟩ := exists_of_suffix_place h
  exact ⟨start, ws, fun w hw => valid_of_mem_wordsOf w (hws.subset hw), rfl⟩

/-- A token joins the next one that is not blank exactly if there is no blank between them. -/
theorem joins_solid_iff {t : Token} {rest : List Token} {kind : TokenKind}
    (hk : kind.isBlank = false) (h : t :: rest <:+ tokenize text) :
    t.Joins kind (solid rest) ↔ ∃ u ∈ rest.head?, u.kind = kind := by
  obtain ⟨start, ws, hv, hplace⟩ := exists_place_of_suffix h
  obtain _ | ⟨w, ws⟩ := ws
  · cases hplace
  obtain ⟨rfl, rfl⟩ := List.cons.inj hplace
  obtain ⟨-, hv⟩ := List.forall_mem_cons.mp hv
  obtain _ | ⟨v, ws⟩ := ws
  · simp [place, solid, Token.Joins]
  cases hb : (v.tokenAt (start + w.size)).isBlank with
  | false =>
    rw [place, solid_cons hb]
    constructor
    · rintro ⟨u, ⟨⟩, hu, -⟩
      exact ⟨_, rfl, hu⟩
    · rintro ⟨u, ⟨⟩, hu⟩
      exact ⟨_, rfl, hu, rfl⟩
  | true =>
    rw [place, solid_cons_blank hb]
    constructor
    · rintro ⟨u, hu, -, hjoin⟩
      -- the blank between them is not empty
      have hpos := (hv v List.mem_cons_self).size_pos
      have hmem : u ∈ place (start + w.size + v.size) ws :=
        (List.mem_filter.mp (List.mem_of_mem_head? hu)).1
      have hle := le_of_mem_place hmem
      have hstop : start + w.size = u.span.start := hjoin
      omega
    · rintro ⟨u, ⟨⟩, rfl⟩
      exact absurd (hb.symm.trans hk) (by simp)

theorem solid_dropWhile (ts : List Token) : solid (ts.dropWhile (·.isBlank)) = solid ts := by
  induction ts with
  | nil => rfl
  | cons t ts ih =>
    cases ht : t.isBlank with
    | true => rw [List.dropWhile_cons_of_pos (by exact ht), ih, solid_cons_blank ht]
    | false => rw [List.dropWhile_cons_of_neg (by simp [ht])]

/-! ## Cursors -/

namespace Cursor

/-- What is ahead ends with the text, and these are the tokens in it that are not blank. -/
structure Sees (text : String) (c : Cursor) (ts : List Token) : Prop where
  suffix : c.ahead <:+ tokenize text
  solid : solid c.ahead = ts

variable {c c' : Cursor} {t : Token} {ts : List Token}

theorem sees_ofText (text : String) : (ofText text).Sees text (MatrixScript.solid (tokenize text)) :=
  ⟨List.suffix_rfl, rfl⟩

namespace Sees

theorem peek? (h : c.Sees text ts) : c.peek? = ts.head? := by
  rw [← h.solid, MatrixScript.solid, List.head?_filter, Cursor.peek?]

theorem peekKind? (h : c.Sees text ts) : c.peekKind? = ts.head?.map (·.kind) := by
  rw [Cursor.peekKind?, h.peek?]

theorem length_le (h : c.Sees text ts) : ts.length ≤ c.ahead.length := by
  rw [← h.solid]
  exact List.length_filter_le ..

theorem takes (h : c.Sees text ts) (ht : Takes c t c') : ∃ us, ts = t :: us ∧ c'.Sees text us := by
  obtain ⟨blanks, hblanks, hahead⟩ := ht.ahead
  have hsolid : MatrixScript.solid c.ahead = t :: MatrixScript.solid c'.ahead := by
    rw [hahead, solid_append, solid_cons ht.solid, MatrixScript.solid,
      List.filter_eq_nil_iff.mpr fun b hb => by simp [hblanks b hb]]
    rfl
  refine ⟨MatrixScript.solid c'.ahead, h.solid.symm.trans hsolid, ?_, rfl⟩
  refine List.IsSuffix.trans ?_ h.suffix
  rw [hahead, List.append_cons]
  exact List.suffix_append _ _

theorem current (h : c.Sees text ts) (hc : c.current? = some t) (ht : t.isBlank = false) :
    ts.head? = some t := by
  obtain ⟨rest, hahead⟩ := List.head?_eq_some_iff.mp hc
  rw [← h.solid, hahead, solid_cons ht]
  rfl

theorem peekJoined_iff {kind next : TokenKind} (hk : next.isBlank = false)
    (h : c.Sees text (t :: ts)) :
    c.peekJoined kind next = true ↔ t.kind = kind ∧ t.Joins next ts := by
  have hdrop : MatrixScript.solid (c.ahead.dropWhile (·.isBlank)) = t :: ts :=
    (solid_dropWhile c.ahead).trans h.solid
  unfold peekJoined
  cases hd : c.ahead.dropWhile (·.isBlank) with
  | nil => rw [hd] at hdrop; cases hdrop
  | cons v rest =>
    have hv : v.isBlank = false := by
      have hhead := List.head?_dropWhile_not Token.isBlank c.ahead
      rw [hd] at hhead
      simpa using hhead
    rw [hd, solid_cons hv] at hdrop
    obtain ⟨rfl, rfl⟩ := List.cons.inj hdrop
    rw [joins_solid_iff hk ((hd ▸ List.dropWhile_suffix _).trans h.suffix)]
    cases rest with
    | nil => simp
    | cons u rest => simp

end Sees

end Cursor

/-! ## Basic steps -/

namespace Parse

open Cursor

variable {α : Type} {c : Cursor} {ts : List Token}

def Move.Fits (ends : Ending) (groups : List Span) (slot : Slot) (c : Cursor) : Move → Prop
  | .stop => groups = []
  | .refuse _ _ => True
  | .operand => slot ≠ .operator ∧ (c.peekKind? = some .sub → c.peekJoined .sub .int = true) ∧
      (c.peekKind? = some .openSquare → ends ≠ .element)
  | .opening => slot ≠ .operator ∧ c.peekKind? = some .openParen
  | .closing => slot ≠ .first ∧ c.peekKind? = some .closeParen ∧ groups ≠ []
  | .unary op => slot ≠ .operator ∧ c.peekKind? = some op.kind ∧
      (op = .neg → c.peekJoined .sub .int = false)
  | .binary op => c.peekKind? = some op.kind ∧ (op.looksUnary → slot = .operator)

section
variable {ends : Ending} {groups : List Span} {slot : Slot}

theorem Move.fits_ofCursor : (Move.ofCursor ends groups slot c).Fits ends groups slot c := by
  generalize hm : Move.ofCursor ends groups slot c = move
  cases Move.chosen_of_eq hm with
  | stop hgroups => exact hgroups
  | refuse => trivial
  | operand ht hslot hkind =>
    have hpeek := Cursor.peekKind?_of_mem ht
    exact ⟨hslot, by grind, by grind⟩
  | opening ht hslot hkind => exact ⟨hslot, hkind ▸ Cursor.peekKind?_of_mem ht⟩
  | closing ht hslot hkind hgroups => exact ⟨hslot, hkind ▸ Cursor.peekKind?_of_mem ht, hgroups⟩
  | unary ht hslot hkind hjoined => exact ⟨hslot, hkind ▸ Cursor.peekKind?_of_mem ht, hjoined⟩
  | binary ht hkind hslot => exact ⟨hkind ▸ Cursor.peekKind?_of_mem ht, hslot⟩

end

/-! ## Numbers and lists -/

def Consumes (text : String) (R : α → List Token → Prop) (p : Parse α) : Prop :=
  ∀ c ts, c.Sees text ts →
    Returns p c fun x c' => ∃ us rest, ts = us ++ rest ∧ R x us ∧ c'.Sees text rest

theorem returns_token_seen (kind : TokenKind) (h : c.Sees text ts) :
    Returns (token kind) c fun t c' => t.kind = kind ∧ ∃ us, ts = t :: us ∧ c'.Sees text us :=
  (ends_token fun _ _ => trivial).mono fun _ _ ⟨hk, ht⟩ => ⟨hk, h.takes ht⟩

theorem returns_next_seen {kind : TokenKind} (h : c.Sees text ts)
    (hk : c.peekKind? = some kind) :
    Returns next c fun t c' => t.kind = kind ∧ ∃ us, ts = t :: us ∧ c'.Sees text us := by
  refine (ends_next fun _ _ => trivial).mono fun t c' ht => ⟨?_, h.takes ht⟩
  rw [Cursor.peekKind?, ht.peek?] at hk
  exact Option.some.inj hk

def AcceptedSeen (text : String) (kind : TokenKind) (ts : List Token) (t : Option Token)
    (c' : Cursor) : Prop :=
  (t = none ∧ c'.Sees text ts) ∨
    ∃ u us, t = some u ∧ u.kind = kind ∧ ts = u :: us ∧ c'.Sees text us

theorem returns_accept_seen (kind : TokenKind) (h : c.Sees text ts) :
    Returns (accept kind) c (AcceptedSeen text kind ts) := by
  refine ends_accept.mono ?_
  rintro t c' (⟨rfl, rfl, -⟩ | ⟨u, rfl, hk, hu⟩)
  · exact .inl ⟨rfl, h⟩
  · obtain ⟨us, hus, h'⟩ := h.takes hu
    rw [Cursor.peekKind?, hu.peek?] at hk
    exact .inr ⟨u, us, rfl, Option.some.inj hk, hus, h'⟩

theorem consumes_numeral : Consumes text NumeralYields numeral := by
  intro c ts h
  refine ends_numeral_of (ends_acceptJoined.mono ?_)
  rintro sign c₁ (⟨rfl, rfl, -⟩ | ⟨m, rfl, hj, hm⟩)
  · refine (returns_token_seen .int h).mono ?_
    rintro t c₂ ⟨hk, us, rfl, h₂⟩
    exact ⟨fun _ _ _ => trivial, fun _ => trivial,
      fun hsize => ⟨[t], us, rfl, .plain hk hsize, h₂⟩⟩
  · obtain ⟨us, rfl, h₁⟩ := h.takes hm
    obtain ⟨hsub, u, hu, -, hstop⟩ := (h.peekJoined_iff rfl).mp hj
    refine (returns_token_seen .int h₁).mono ?_
    rintro t c₂ ⟨hk, us, rfl, h₂⟩
    obtain rfl : t = u := Option.some.inj hu
    exact ⟨fun _ _ _ => trivial, fun _ => trivial,
      fun hsize => ⟨[m, t], us, rfl, .signed hsub hk hstop hsize, h₂⟩⟩

section
variable {item : Parse α} {R : α → List Token → Prop}

theorem consumes_commaSeparated (hitem : Consumes text R item) (fuel : Nat) :
    Consumes text (fun ys us => ys ≠ [] ∧ Listed R ys us) (commaSeparated item fuel) := by
  induction fuel with
  | zero => exact fun c ts h => ends_failHere.mpr trivial
  | succ fuel ih =>
    intro c ts h
    unfold commaSeparated
    refine (hitem c ts h).bind ?_
    rintro y c₁ ⟨us, rest, rfl, hy, h₁⟩
    refine (returns_accept_seen .comma h₁).bind ?_
    rintro t c₂ (⟨rfl, h₂⟩ | ⟨comma, rest, rfl, hcomma, rfl, h₂⟩)
    · exact ⟨us, rest, rfl, ⟨List.cons_ne_nil _ _, .singleton hy⟩, h₂⟩
    · rw [Option.isSome_some, if_pos rfl]
      refine (ih c₂ rest h₂).bind ?_
      rintro ys c₃ ⟨vs, rest, rfl, ⟨hne, hys⟩, h₃⟩
      obtain ⟨z, ys, rfl⟩ := List.exists_cons_of_ne_nil hne
      exact ⟨us ++ comma :: vs, rest, by simp, ⟨List.cons_ne_nil _ _, .cons hy hcomma hys⟩, h₃⟩

theorem returns_closed {β : Type} (hitem : Consumes text R item) {kind : TokenKind}
    {empty : Token → Parse β} {full : List α → Token → Parse β} {unclosed : List α → Parse β}
    {Q : β → Cursor → Prop} (h : c.Sees text ts) (hempty : ∀ t, empty t = full [] t)
    (hfull : ∀ ys t us rest c', ts = us ++ t :: rest → t.kind = kind → Listed R ys us →
      c'.Sees text rest → Returns (full ys t) c' Q)
    (hunclosed : ∀ ys c', Returns (unclosed ys) c' Q) :
    Returns (do
      match ← accept kind with
      | some t => empty t
      | none =>
        let ys ← commaSeparated item (← bound)
        match ← accept kind with
        | some t => full ys t
        | none => unclosed ys) c Q := by
  refine (returns_accept_seen kind h).bind ?_
  rintro t c₁ (⟨rfl, h₁⟩ | ⟨closing, rest, rfl, hk, rfl, h₁⟩)
  · dsimp only
    rw [ends_bind, ends_bound]
    refine (consumes_commaSeparated hitem _ c₁ ts h₁).bind ?_
    rintro ys c₂ ⟨us, rest, rfl, ⟨-, hys⟩, h₂⟩
    refine (returns_accept_seen kind h₂).bind ?_
    rintro t c₃ (⟨rfl, h₃⟩ | ⟨closing, rest, rfl, hk, rfl, h₃⟩)
    · exact hunclosed ys c₃
    · exact hfull ys closing us rest c₃ rfl hk hys h₃
  · dsimp only
    rw [hempty]
    exact hfull [] closing [] rest c₁ rfl hk .nil h₁

theorem consumes_bracketed (hitem : Consumes text R item) :
    Consumes text (BracketedYields R) (bracketed item) := by
  intro c ts h
  unfold bracketed
  refine (returns_token_seen .openSquare h).bind ?_
  rintro opening c₁ ⟨ho, us, rfl, h₁⟩
  refine returns_closed hitem h₁ (fun t => rfl) ?_ fun ys c' => trivial
  rintro ys closing us rest c₂ rfl hc hys h₂
  exact ⟨opening :: (us ++ [closing]), rest, by simp, .mk ho hc hys, h₂⟩

end

/-! ## Operands -/

section
variable {nested : Ending → Parse Expression}

def ReadsYields (text : String) (nested : Ending → Parse Expression) : Prop :=
  ∀ ends, Consumes text (ExpressionYields ends) (nested ends)

theorem returns_callOf_yields (hn : ReadsYields text nested) {name : Token}
    (hname : name.kind = .name) (h : c.Sees text ts) :
    Returns (callOf nested ⟨name.lexeme, name.span⟩) c fun x c' =>
      ∃ us rest, ts = us ++ rest ∧ CallYields x (name :: us) ∧ c'.Sees text rest := by
  unfold callOf
  refine (returns_token_seen .openParen h).bind ?_
  rintro opening c₁ ⟨ho, us, rfl, h₁⟩
  refine returns_closed (hn .argument) h₁ (fun t => rfl) ?_ fun ys c' => trivial
  rintro args closing us rest c₂ rfl hc hargs h₂
  exact ⟨opening :: (us ++ [closing]), rest, by simp, .mk hname ho hc hargs, h₂⟩

theorem consumes_rowOf (hn : ReadsYields text nested) : Consumes text RowYields (rowOf nested) := by
  intro c ts h
  unfold rowOf
  rw [Returns, ends_attempt, ends_bind, ends_peekKind]
  split
  · exact consumes_bracketed (hn .element) c ts h
  · trivial

theorem consumes_matrixOf (hn : ReadsYields text nested) :
    Consumes text MatrixYields (matrixOf nested) := by
  intro c ts h
  unfold matrixOf
  rw [Returns, ends_attempt]
  exact consumes_bracketed (consumes_rowOf hn) c ts h

theorem consumes_operandOf (hn : ReadsYields text nested) :
    Consumes text OperandYields (operandOf nested) := by
  intro c ts h
  have hnumber : Returns (.number <$> numeral) c fun x c' =>
      ∃ us rest, ts = us ++ rest ∧ OperandYields x us ∧ c'.Sees text rest := by
    refine ends_map.mpr ((consumes_numeral c ts h).mono ?_)
    rintro n c' ⟨us, rest, rfl, hn, h'⟩
    exact ⟨us, rest, rfl, .number hn, h'⟩
  unfold operandOf
  rw [Returns, ends_bind, ends_peekKind]
  split
  · exact hnumber
  · exact hnumber
  · unfold name
    rw [bind_assoc]
    refine (returns_token_seen .name h).bind ?_
    rintro name c₁ ⟨hname, us, rfl, h₁⟩
    rw [pure_bind, ends_bind, ends_peekKind]
    split
    · refine ends_map.mpr ((returns_callOf_yields hn hname h₁).mono ?_)
      rintro x c₂ ⟨us, rest, rfl, hx, h₂⟩
      exact ⟨name :: us, rest, rfl, .call hx, h₂⟩
    · exact ⟨[name], us, rfl, .symbol hname, h₁⟩
  · refine ends_map.mpr ((consumes_matrixOf hn c ts h).mono ?_)
    rintro m c' ⟨us, rest, rfl, hm, h'⟩
    exact ⟨us, rest, rfl, .matrix hm, h'⟩

/-! ## Items -/

theorem returns_item {ends : Ending} {slot : Slot} {depth : Nat} {kind : TokenKind}
    {f : Token → Item Operand} {p : Token → Parse (List (Item Operand))}
    {R : List (Item Operand) → List Token → Prop} (h : c.Sees text ts)
    (hk : c.peekKind? = some kind) (hp : ∀ t, Consumes text R (p t))
    (hf : ∀ t items us rest, ts = t :: (us ++ rest) → t.kind = kind → R items us →
      ItemsYield ends depth slot (f t :: items) (t :: us)) :
    Returns (do let t ← next; return f t :: (← p t)) c fun items c' =>
      ∃ us rest, ts = us ++ rest ∧ ItemsYield ends depth slot items us ∧ c'.Sees text rest := by
  refine (returns_next_seen h hk).bind ?_
  rintro t c₁ ⟨hkind, us, rfl, h₁⟩
  refine (hp t c₁ us h₁).bind ?_
  rintro items c₂ ⟨us, rest, rfl, hitems, h₂⟩
  exact ⟨t :: us, rest, rfl, hf t items us rest rfl hkind hitems, h₂⟩

theorem consumes_itemsOf (hn : ReadsYields text nested) (ends : Ending) (fuel : Nat)
    (groups : List Span) (slot : Slot) :
    Consumes text (ItemsYield ends groups.length slot) (itemsOf nested ends fuel groups slot) := by
  induction fuel generalizing groups slot with
  | zero => exact fun c ts h => ends_failHere.mpr trivial
  | succ fuel ih =>
    intro c ts h
    have hfits := @Move.fits_ofCursor c ends groups slot
    unfold itemsOf
    rw [Returns, ends_bind, ends_get]
    cases hm : Move.ofCursor ends groups slot c with
    | stop =>
      rw [hm] at hfits
      obtain rfl : groups = [] := hfits
      exact ⟨[], ts, rfl, .nil, h⟩
    | refuse cause spans => trivial
    | operand =>
      rw [hm] at hfits
      obtain ⟨hslot, -, hsquare⟩ := hfits
      refine (consumes_operandOf hn c ts h).bind ?_
      rintro x c₁ ⟨us, rest, rfl, hx, h₁⟩
      refine (ih groups .operator c₁ rest h₁).bind ?_
      rintro items c₂ ⟨vs, rest, rfl, hitems, h₂⟩
      refine ⟨us ++ vs, rest, by simp, .operand hslot ?_ hx hitems, h₂⟩
      rintro hends m rfl
      cases hx with
      | matrix hm =>
        cases hm with
        | mk ho => exact hsquare (by rw [h.peekKind?]; simp [ho]) hends
    | opening =>
      rw [hm] at hfits
      obtain ⟨hslot, hk⟩ := hfits
      exact returns_item h hk (fun t => ih (t.span :: groups) .first)
        fun t items us rest _ hk hitems => .opening hk hslot hitems
    | closing =>
      rw [hm] at hfits
      obtain ⟨hslot, hk, hne⟩ := hfits
      obtain ⟨group, groups, rfl⟩ := List.exists_cons_of_ne_nil hne
      exact returns_item h hk (fun t => ih groups .operator)
        fun t items us rest _ hk hitems => .closing hk hslot hitems
    | unary op =>
      rw [hm] at hfits
      obtain ⟨hslot, hk, hj⟩ := hfits
      refine returns_item h hk (fun t => ih groups .operand)
        fun t items us rest hts hk hitems => .unary hk hslot (fun hneg hjoins => ?_) hitems
      subst hts
      have hjoined : c.peekJoined .sub .int = true :=
        (h.peekJoined_iff rfl).mpr ⟨by rw [hk, hneg]; rfl, hjoins.append rest⟩
      exact Bool.false_ne_true ((hj hneg).symm.trans hjoined)
    | binary op =>
      rw [hm] at hfits
      obtain ⟨hk, hslot⟩ := hfits
      exact returns_item h hk (fun t => ih groups .operand)
        fun t items us rest _ hk hitems => .binary hk hslot hitems

/-! ## Expressions -/

theorem readsYields_expressionAt (depth : Nat) : ReadsYields text (expressionAt depth) := by
  induction depth with
  | zero => exact fun ends c ts h => ends_failHere.mpr trivial
  | succ depth ih =>
    intro ends c ts h
    unfold expressionAt expressionOf
    rw [Returns, ends_bind, ends_bound]
    refine (consumes_itemsOf ih ends _ [] .operand c ts h).bind ?_
    rintro items c' ⟨us, rest, rfl, hitems, h'⟩
    cases items with
    | nil => exact ends_failHere.mpr trivial
    | cons first items => exact ⟨us, rest, rfl, .mk hitems, h'⟩

theorem readsYields_expression : ReadsYields text expression := by
  intro ends c ts h
  unfold expression
  rw [Returns, ends_bind, ends_bound]
  exact readsYields_expressionAt _ ends c ts h

end

/-! ## Statements -/

theorem returns_semicolon_seen (h : c.Sees text ts) :
    Returns semicolon c fun s c' =>
      ∃ t us, t.kind = .semicolon ∧ s = t.span ∧ ts = t :: us ∧ c'.Sees text us := by
  unfold semicolon
  refine (returns_accept_seen .semicolon h).bind ?_
  rintro t c' (⟨rfl, h'⟩ | ⟨t, us, rfl, hk, rfl, h'⟩)
  · trivial
  · exact ⟨t, us, hk, rfl, rfl, h'⟩

theorem consumes_declaration : Consumes text DeclarationYields declaration := by
  intro c ts h
  unfold declaration
  rw [Returns, ends_attempt]
  refine (returns_token_seen .letKeyword h).bind ?_
  rintro keyword c₁ ⟨hl, us, rfl, h₁⟩
  refine (returns_accept_seen .name h₁).bind ?_
  rintro t c₂ (⟨rfl, h₂⟩ | ⟨name, us, rfl, hname, rfl, h₂⟩)
  · exact ends_failHere.mpr trivial
  · refine (returns_accept_seen .assign h₂).bind ?_
    rintro t c₃ (⟨rfl, h₃⟩ | ⟨assign, us, rfl, ha, rfl, h₃⟩)
    · exact ends_failHere.mpr trivial
    · rw [Option.isSome_some, if_pos rfl]
      refine (readsYields_expression .semicolon c₃ us h₃).bind ?_
      rintro value c₄ ⟨us, rest, rfl, hvalue, h₄⟩
      refine (returns_semicolon_seen h₄).bind ?_
      rintro s c₅ ⟨semicolon, rest, hs, rfl, rfl, h₅⟩
      exact ⟨keyword :: name :: assign :: (us ++ [semicolon]), rest, by simp,
        .mk hl hname ha hs hvalue, h₅⟩

theorem consumes_statement : Consumes text StatementYields statement := by
  intro c ts h
  unfold statement
  rw [Returns, ends_attempt, ends_bind, ends_peekKind]
  split
  · refine ends_map.mpr ((consumes_declaration c ts h).mono ?_)
    rintro d c' ⟨us, rest, rfl, hd, h'⟩
    exact ⟨us, rest, rfl, .declaration hd, h'⟩
  · unfold name
    rw [bind_assoc]
    refine (returns_token_seen .name h).bind ?_
    rintro name c₁ ⟨hname, us, rfl, h₁⟩
    rw [pure_bind, ends_bind, ends_peekKind]
    split
    · refine (returns_callOf_yields readsYields_expression hname h₁).bind ?_
      rintro x c₂ ⟨us, rest, rfl, hx, h₂⟩
      refine (returns_semicolon_seen h₂).bind ?_
      rintro s c₃ ⟨semicolon, rest, hs, -, rfl, h₃⟩
      exact ⟨name :: us ++ [semicolon], rest, by simp, .call hx hs, h₃⟩
    · trivial
  · exact ends_failHere.mpr trivial

theorem returns_statementsWithin_yields (fuel : Nat) (h : c.Sees text ts) :
    Returns (statementsWithin fuel) c fun script _ => ScriptYields script ts := by
  induction fuel generalizing c ts with
  | zero => exact ends_failHere.mpr trivial
  | succ fuel ih =>
    unfold statementsWithin
    refine (returns_accept_seen .semicolon h).bind ?_
    rintro t c₁ (⟨rfl, h₁⟩ | ⟨semicolon, us, rfl, hs, rfl, h₁⟩)
    · rw [Option.isSome_none, if_neg Bool.false_ne_true, ends_bind, ends_peekKind, h₁.peekKind?]
      cases ts with
      | nil => exact ScriptYields.nil
      | cons t ts =>
        refine (consumes_statement c₁ _ h₁).bind ?_
        rintro s c₂ ⟨us, rest, hts, hs, h₂⟩
        rw [hts]
        refine (ih h₂).bind ?_
        exact fun script c₃ hscript => .cons hs hscript
    · rw [Option.isSome_some, if_pos rfl]
      exact (ih h₁).mono fun script c' hscript => .skip hs hscript

end Parse

theorem scriptYields_of_parseScript {script : List Statement}
    (h : parseScript text = .ok script) : ScriptYields script (solid (tokenize text)) := by
  unfold parseScript at h
  split at h
  · next hp =>
    cases h
    have hreturns : Parse.Returns Parse.statements (.ofText text) fun script _ =>
        ScriptYields script (solid (tokenize text)) := by
      unfold Parse.statements
      rw [Parse.Returns, Parse.ends_bind, Parse.ends_bound]
      exact Parse.returns_statementsWithin_yields _ (Cursor.sees_ofText text)
    exact hreturns.of_eq hp
  · cases h

end MatrixScript
