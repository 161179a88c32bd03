import MatrixScript.Proofs.ReadingItems

/-!
# Reading printed programs back

At a cursor that shows the words of a legible program the parser reads that program, up to spans and
up to the signs that become part of numbers, and leaves the words after it.
-/

namespace MatrixScript

namespace Parse

open Cursor

variable {c : Cursor} {rest : List Word} {nested : Ending → Parse Expression}

/-! ## Expressions -/

theorem fuse_ne_nil {items : List (Item Operand)} (h : items ≠ []) : fuse items ≠ [] := by
  unfold fuse
  split
  · exact absurd rfl h
  · split <;> simp
  · simp

def ReadsBackTo (p : Parse Expression) (ends : Ending) (e : Expression) : Prop :=
  ReadsAs p expressionWords (reshape id) (reshape fuse) (EndsAt ends) e

theorem readsBackTo_expressionAt {depth : Nat} {ends : Ending} {e : Expression} (he : Legible e)
    (hx : ItemsBack (expressionAt depth) ends e.items) :
    ReadsBackTo (expressionAt (depth + 1) ends) ends e := by
  intro c rest h hrest
  obtain ⟨items, span⟩ := e
  rw [expressionWords] at h
  have hlength := length_le_itemsWords items
  have hshown := h.solidLength_le
  rw [solidLength_append] at hshown
  unfold expressionAt expressionOf
  rw [Reaches, ends_bind, ends_bound]
  have hfuel : items.length < c.ahead.length + 1 := by omega
  have hr : Reads ([] : List Span).length .operand items := he.reads
  refine (reaches_itemsOf hrest _ hr he.placed hx h hfuel).bind ?_
  intro read c' hread
  obtain ⟨hread, h'⟩ := hread
  cases read with
  | nil =>
    have hne : fuse (items.map (reshapeItem fuse)) ≠ [] := by
      refine fuse_ne_nil fun hnil => he.ne_nil ?_
      exact List.map_eq_nil_iff.mp hnil
    exact absurd hread.symm hne
  | cons first read =>
    refine ⟨?_, h'⟩
    rw [reshape, reshape, reshapeItems_eq_map, reshapeItems_eq_map, id, hread]

/-! ## Operands -/

theorem headKind?_expressionWords {e : Expression} (he : Legible e) :
    ∃ kind, headKind? (expressionWords e) = some kind ∧ kind ≠ .closeSquare ∧
      kind ≠ .closeParen := by
  obtain ⟨items, span⟩ := e
  cases items with
  | nil => exact absurd rfl he.ne_nil
  | cons item items =>
    refine ⟨itemKind item, headKind?_append (headKind?_itemWords item) _, ?_⟩
    have hr : Reads 0 .operand (item :: items) := he.reads
    cases hr with
    | operand x =>
      cases x with
      | number n => rw [itemKind]; split <;> simp
      | symbol s => simp [itemKind]
      | call c => simp [itemKind]
      | matrix m => simp [itemKind]
    | unary op => cases hv : op.value <;> simp [itemKind, hv, UnaryOp.kind]
    | binary op => cases hv : op.value <;> simp [itemKind, hv, BinaryOp.kind]
    | opening span => simp [itemKind]

theorem Delimits.endsAt {ends : Ending} {ws : List Word} (hne : ends ≠ .semicolon)
    (h : Delimits ends.closing ws) : EndsAt ends ws := h.imp id fun hcomma => ⟨hne, hcomma⟩

theorem ReadsBackTo.delimited {ends : Ending} {p : Parse Expression} {e : Expression}
    (h : ReadsBackTo p ends e) (hne : ends ≠ .semicolon) :
    ReadsAs p expressionWords (reshape id) (reshape fuse) (Delimits ends.closing) e :=
  fun c rest hc hrest => h c rest hc (hrest.endsAt hne)

theorem reaches_callOf {callee : Located String} {args : List Expression}
    (hlegible : ∀ e ∈ args, Legible e)
    (hargs : ∀ e ∈ args, ReadsBackTo (nested .argument) .argument e)
    (h : c.Shows (.char '(' :: listWords (args.map expressionWords) ++ [.char ')'] ++ rest)) :
    Reaches (callOf nested callee) c fun x c' =>
      reshapeCall id x = ⟨⟨callee.value, nowhere⟩, args.map (reshape fuse), nowhere, nowhere⟩ ∧
        c'.Shows rest := by
  rw [List.append_assoc, List.cons_append] at h
  unfold callOf
  refine (reaches_token h rfl).bind ?_
  intro opening c₁ h₁
  obtain ⟨-, h₁⟩ := h₁
  have hhead : ∀ e ∈ args, ∃ kind, headKind? (expressionWords e) = some kind ∧
      kind ≠ .closeParen := fun e he =>
    (headKind?_expressionWords (hlegible e he)).imp fun _ hk => ⟨hk.1, hk.2.2⟩
  have hitem := fun e he => (hargs e he).delimited (by simp)
  have hcomma : TokenKind.closeParen ≠ .comma := by simp
  refine reaches_closed (w := .char ')') rfl hcomma hitem hhead h₁.shows (fun _ => rfl) ?_
  intro read closing c₂ hread h₂
  exact ⟨by rw [reshapeCall, reshapeAll_eq_map, hread], h₂⟩

theorem reaches_rowOf {row : Row} (hlegible : ∀ e ∈ row.items, Legible e)
    (helements : ∀ e ∈ row.items, ReadsBackTo (nested .element) .element e) :
    ReadsAs (rowOf nested) rowWords (reshapeRow id) (reshapeRow fuse) (Delimits .closeSquare) row := by
  intro c rest h _
  obtain ⟨elements, span⟩ := row
  rw [rowWords, allWords_eq_map] at h
  have hpeek : c.peekKind? = some .openSquare := h.peekKind?
  have hhead : ∀ e ∈ elements, ∃ kind, headKind? (expressionWords e) = some kind ∧
      kind ≠ .closeSquare := fun e he =>
    (headKind?_expressionWords (hlegible e he)).imp fun _ hk => ⟨hk.1, hk.2.1⟩
  unfold rowOf
  rw [Reaches, ends_attempt, ends_bind, ends_peekKind, hpeek, if_pos rfl]
  have hitem := fun e he => (helements e he).delimited (by simp)
  refine (reaches_bracketed hitem hhead h).mono ?_
  intro read c' hread
  obtain ⟨hread, h'⟩ := hread
  refine ⟨?_, h'⟩
  obtain ⟨items, span'⟩ := read
  rw [reshapeRow, reshapeRow, reshapeAll_eq_map, reshapeAll_eq_map]
  exact congrArg (Bracketed.mk · nowhere) hread

theorem reaches_matrixOf {m : MatrixLiteral} (hlegible : ∀ row ∈ m.items, ∀ e ∈ row.items, Legible e)
    (helements : ∀ row ∈ m.items, ∀ e ∈ row.items, ReadsBackTo (nested .element) .element e)
    (h : c.Shows (matrixWords m ++ rest)) :
    Reaches (matrixOf nested) c fun x c' =>
      reshapeMatrix id x = reshapeMatrix fuse m ∧ c'.Shows rest := by
  obtain ⟨rows, span⟩ := m
  rw [matrixWords, rowsWords_eq_map] at h
  unfold matrixOf
  rw [Reaches, ends_attempt]
  have hitem := fun row hrow => reaches_rowOf (hlegible row hrow) (helements row hrow)
  have hhead : ∀ row ∈ rows, ∃ kind, headKind? (rowWords row) = some kind ∧
      kind ≠ .closeSquare := fun row _ => ⟨.openSquare, by cases row; rfl, by simp⟩
  refine (reaches_bracketed hitem hhead h).mono ?_
  intro read c' hread
  obtain ⟨hread, h'⟩ := hread
  refine ⟨?_, h'⟩
  obtain ⟨items, span'⟩ := read
  rw [reshapeMatrix, reshapeMatrix, reshapeRows_eq_map, reshapeRows_eq_map]
  exact congrArg (Bracketed.mk · nowhere) hread

theorem reaches_name {s : String} {ws : List Word} (h : c.Shows (⟨.name, s⟩ :: ws)) :
    Reaches name c fun x c' => x.value = s ∧ c'.Shows ws := by
  unfold name
  refine (reaches_token h rfl).bind ?_
  intro t c' ht
  obtain ⟨ht, h'⟩ := ht
  exact ⟨congrArg Word.lexeme ht, h'.shows⟩

theorem readsBack_symbol (s : Located String) : ReadsBack nested (.symbol s) := by
  intro c rest h hrest
  have hkind : c.peekKind? = some .name := h.peekKind?
  unfold operandOf
  rw [Reaches, ends_bind, ends_peekKind, hkind]
  dsimp only
  refine (reaches_name h).bind ?_
  intro symbol c₁ hsymbol
  obtain ⟨hsymbol, h₁⟩ := hsymbol
  have hnext : c₁.peekKind? ≠ some .openParen := by
    rw [h₁.peekKind?]
    exact fun hopen => absurd (hrest _ hopen) (by decide)
  rw [ends_bind, ends_peekKind, if_neg hnext]
  exact ⟨by rw [reshapeOperand, reshapeOperand, hsymbol], h₁⟩

theorem readsBack_call {x : Call} (hlegible : ∀ e ∈ x.args, Legible e)
    (hargs : ∀ e ∈ x.args, ReadsBackTo (nested .argument) .argument e) :
    ReadsBack nested (.call x) := by
  intro c rest h _
  obtain ⟨callee, args, span, parens⟩ := x
  rw [Operand.words, callWords, allWords_eq_map] at h
  have hkind : c.peekKind? = some .name := h.peekKind?
  unfold operandOf
  rw [Reaches, ends_bind, ends_peekKind, hkind]
  dsimp only
  refine (reaches_name h).bind ?_
  intro symbol c₁ hsymbol
  obtain ⟨hsymbol, h₁⟩ := hsymbol
  have hnext : c₁.peekKind? = some .openParen := h₁.peekKind?
  rw [ends_bind, ends_peekKind, if_pos hnext, ends_map]
  refine (reaches_callOf hlegible hargs h₁).mono ?_
  intro read c₂ hread
  obtain ⟨hread, h₂⟩ := hread
  refine ⟨?_, h₂⟩
  rw [reshapeOperand, hread, hsymbol, reshapeOperand, reshapeCall, reshapeAll_eq_map]

theorem readsBack_matrix {m : MatrixLiteral} (hlegible : ∀ row ∈ m.items, ∀ e ∈ row.items, Legible e)
    (helements : ∀ row ∈ m.items, ∀ e ∈ row.items, ReadsBackTo (nested .element) .element e) :
    ReadsBack nested (.matrix m) := by
  intro c rest h _
  have hkind : c.peekKind? = some .openSquare := by
    rw [h.peekKind?]
    exact headKind?_append (headKind?_itemWords (.operand (.matrix m))) rest
  unfold operandOf
  rw [Reaches, ends_bind, ends_peekKind, hkind]
  dsimp only
  rw [ends_map]
  refine (reaches_matrixOf hlegible helements h).mono ?_
  intro read c₁ hread
  obtain ⟨hread, h₁⟩ := hread
  exact ⟨by rw [reshapeOperand, reshapeOperand, hread], h₁⟩

theorem solidLength_inner {x : Operand} {e : Expression} (he : e ∈ x.inner) :
    solidLength (expressionWords e) < solidLength x.words := by
  match x with
  | .number n => cases he
  | .symbol s => cases he
  | .call ⟨name, args, span, parens⟩ =>
    have hle : solidLength (expressionWords e) ≤
        solidLength (listWords (args.map expressionWords)) := solidLength_le_listWords he
    rw [Operand.words, callWords, allWords_eq_map, solidLength_append, solidLength_cons rfl,
      solidLength_cons rfl]
    omega
  | .matrix ⟨rows, span⟩ =>
    obtain ⟨⟨elements, span⟩, hrow, he⟩ := List.mem_flatMap.mp he
    have hrow : solidLength (rowWords ⟨elements, span⟩) ≤
        solidLength (listWords (rows.map rowWords)) := solidLength_le_listWords hrow
    have hle : solidLength (expressionWords e) ≤
        solidLength (listWords (elements.map expressionWords)) := solidLength_le_listWords he
    rw [rowWords, allWords_eq_map, solidLength_append, solidLength_cons rfl] at hrow
    rw [Operand.words, matrixWords, rowsWords_eq_map, solidLength_append, solidLength_cons rfl]
    omega

theorem readsBackTo_inner {ends : Ending} {e : Expression} (he : Sound e)
    (hflat : ends = .element → ¬ holdsMatrix e.items)
    (ih : ∀ y, .operand y ∈ e.items → y.Sound → ∀ depth, solidLength y.words ≤ depth →
      ReadsBack (expressionAt depth) y) {depth : Nat}
    (hdepth : solidLength (expressionWords e) < depth) :
    ReadsBackTo (expressionAt depth ends) ends e := by
  obtain _ | depth := depth
  · cases hdepth
  refine readsBackTo_expressionAt he.legible ⟨hflat, fun y hy => ?_⟩
  refine ih y hy (he.operand hy) depth ?_
  have hle : solidLength y.words ≤ solidLength (expressionWords e) := by
    cases e
    exact solidLength_le_itemsWords hy
  omega

theorem readsBack (x : Operand) :
    x.Sound → ∀ depth, solidLength x.words ≤ depth → ReadsBack (expressionAt depth) x := by
  refine Operand.induct (P := fun x => x.Sound → ∀ depth, solidLength x.words ≤ depth →
    ReadsBack (expressionAt depth) x) (fun x ih hx depth hdepth => ?_) x
  -- the depth that is left is at least the number of words, of which what is inside has fewer
  have hinner {ends : Ending} (e : Expression) (he : e ∈ x.inner)
      (hflat : ends = .element → ¬ holdsMatrix e.items) :
      ReadsBackTo (expressionAt depth ends) ends e :=
    readsBackTo_inner (hx.inner e he) hflat (ih e he)
      ((solidLength_inner he).trans_le hdepth)
  have hlegible : ∀ e ∈ x.inner, Legible e := fun e he => (hx.inner e he).legible
  cases x with
  | number n => exact fun c rest h hrest => reaches_operandOf_number n.value h hrest
  | symbol s => exact readsBack_symbol s
  | call x => exact readsBack_call hlegible fun e he => hinner e he (by simp)
  | matrix m =>
    have hmem : ∀ row ∈ m.items, ∀ e ∈ row.items, e ∈ (Operand.matrix m).inner :=
      fun row hrow e he => List.mem_flatMap.mpr ⟨row, hrow, he⟩
    exact readsBack_matrix (fun row hrow e he => hlegible e (hmem row hrow e he))
      fun row hrow e he => hinner e (hmem row hrow e he) fun _ => hx.regular row hrow e he

/-! ## Statements -/

theorem readsBackTo_expression {ends : Ending} {e : Expression} (he : Sound e)
    (hflat : ends = .element → ¬ holdsMatrix e.items) :
    ReadsBackTo (expression ends) ends e := by
  intro c rest h hrest
  have hshown := h.solidLength_le
  rw [solidLength_append] at hshown
  unfold expression
  rw [Reaches, ends_bind, ends_bound]
  exact readsBackTo_inner he hflat (fun y _ => readsBack y) (by omega) c rest h hrest

theorem reaches_semicolon {ws : List Word} (h : c.Shows (.char ';' :: ws)) :
    Reaches semicolon c fun _ c' => c'.Shows ws := by
  unfold semicolon
  refine (reaches_accept_some h rfl).bind ?_
  intro t c' ht
  obtain ⟨u, rfl, -, h'⟩ := ht
  exact h'.shows

theorem reaches_declaration {d : Declaration} (hd : (Statement.declaration d).Legible)
    (h : c.Shows ((Statement.declaration d).words ++ rest)) :
    Reaches declaration c fun d' c' =>
      (Statement.declaration d').bare = (Statement.declaration d).normal ∧ c'.Shows rest := by
  have hvalue : Sound d.value := hd.inside
  rw [Statement.words, List.append_assoc] at h
  unfold declaration
  rw [Reaches, ends_attempt]
  refine (reaches_token h rfl).bind ?_
  intro keyword c₁ h₁
  obtain ⟨-, h₁⟩ := h₁
  refine (reaches_accept_some (h₁.shows.blank rfl) rfl).bind ?_
  intro t c₂ ht
  obtain ⟨u, rfl, hu, h₂⟩ := ht
  dsimp only
  refine (reaches_accept_some (h₂.shows.blank rfl) rfl).bind ?_
  intro t c₃ ht
  obtain ⟨-, rfl, -, h₃⟩ := ht
  rw [Option.isSome_some, if_pos rfl]
  have hend : EndsAt .semicolon ([.char ';'] ++ rest) := .inl (headKind?_cons rfl rest)
  refine (readsBackTo_expression hvalue (by simp) c₃ _ (h₃.shows.blank rfl) hend).bind ?_
  intro value c₄ hread
  obtain ⟨hread, h₄⟩ := hread
  refine (reaches_semicolon h₄).bind fun stop c₅ h₅ => ⟨?_, h₅⟩
  have hname : u.lexeme = d.name.value := congrArg Word.lexeme hu
  rw [Statement.bare, Statement.normal, Statement.reshape, Statement.reshape, hread, hname]

theorem reaches_statement {s : Statement} (hs : s.Legible) (h : c.Shows (s.words ++ rest)) :
    Reaches statement c fun s' c' => s'.bare = s.normal ∧ c'.Shows rest := by
  unfold statement
  rw [Reaches, ends_attempt, ends_bind, ends_peekKind, h.peekKind?]
  cases s with
  | declaration d =>
    have hkind : headKind? ((Statement.declaration d).words ++ rest) = some .letKeyword :=
      headKind?_cons rfl _
    rw [hkind]
    exact ends_map.mpr (reaches_declaration hs h)
  | call x =>
    obtain ⟨callee, args, span, parens⟩ := x
    have hkind : headKind? ((Statement.call ⟨callee, args, span, parens⟩).words ++ rest) =
        some .name := headKind?_cons rfl _
    have hsound : (Operand.call ⟨callee, args, span, parens⟩).Sound := ⟨hs.name, hs.inside⟩
    rw [hkind]
    dsimp only
    rw [Statement.words, callWords, allWords_eq_map, List.append_assoc] at h
    refine (reaches_name h).bind ?_
    intro symbol c₁ hsymbol
    obtain ⟨hsymbol, h₁⟩ := hsymbol
    have hnext : c₁.peekKind? = some .openParen := h₁.peekKind?
    rw [ends_bind, ends_peekKind, if_pos hnext]
    have hinner : ∀ e ∈ args, Sound e := hsound.inner
    have hargs : ∀ e ∈ args, ReadsBackTo (expression .argument) .argument e :=
      fun e he => readsBackTo_expression (hinner e he) (by simp)
    refine (reaches_callOf (fun e he => (hinner e he).legible) hargs h₁).bind ?_
    intro read c₂ hread
    obtain ⟨hread, h₂⟩ := hread
    refine (reaches_semicolon h₂).bind fun stop c₃ h₃ => ⟨?_, h₃⟩
    rw [Statement.bare, Statement.normal, Statement.reshape, Statement.reshape, hread, hsymbol,
      reshapeCall, reshapeAll_eq_map]

theorem headKind?_statementWords (s : Statement) :
    ∃ kind, headKind? s.words = some kind ∧ kind ≠ .semicolon := by
  cases s with
  | declaration d => exact ⟨.letKeyword, headKind?_cons rfl _, by simp⟩
  | call x =>
    obtain ⟨callee, args, span, parens⟩ := x
    exact ⟨.name, headKind?_cons rfl _, by simp⟩

theorem length_le_scriptWords (script : List Statement) :
    script.length ≤ solidLength (script.flatMap Statement.words) := by
  induction script with
  | nil => exact Nat.zero_le _
  | cons s script ih =>
    obtain ⟨kind, hkind, -⟩ := headKind?_statementWords s
    have hpos := solidLength_pos hkind
    rw [List.flatMap_cons, solidLength_append, List.length_cons]
    omega

theorem reaches_statementsWithin {script : List Statement} (hs : ∀ s ∈ script, s.Legible)
    {fuel : Nat} (hfuel : script.length < fuel)
    (h : c.Shows (script.flatMap Statement.words)) :
    Reaches (statementsWithin fuel) c fun read _ =>
      read.map Statement.bare = script.map Statement.normal := by
  induction fuel generalizing script c with
  | zero => cases hfuel
  | succ fuel ih =>
    unfold statementsWithin
    cases script with
    | nil =>
      refine (reaches_accept_none h (by simp [headKind?])).bind ?_
      intro t c₁ ht
      obtain ⟨rfl, rfl⟩ := ht
      have hnone : c₁.peekKind? = none := h.peekKind?
      rw [Option.isSome_none, if_neg Bool.false_ne_true, ends_bind, ends_peekKind, hnone]
      exact ends_pure.mpr rfl
    | cons s script =>
      obtain ⟨hfirst, hrest⟩ := List.forall_mem_cons.mp hs
      obtain ⟨kind, hkind, hne⟩ := headKind?_statementWords s
      have hhead : headKind? ((s :: script).flatMap Statement.words) = some kind :=
        headKind?_append hkind _
      have hsemicolon : headKind? ((s :: script).flatMap Statement.words) ≠ some .semicolon := by
        rw [hhead]
        exact fun heq => hne (Option.some.inj heq)
      refine (reaches_accept_none h hsemicolon).bind ?_
      intro t c₁ ht
      obtain ⟨rfl, rfl⟩ := ht
      have hsome : c₁.peekKind? = some kind := h.peekKind?.trans hhead
      rw [Option.isSome_none, if_neg Bool.false_ne_true, ends_bind, ends_peekKind, hsome,
        Option.isNone_some, if_neg Bool.false_ne_true]
      refine (reaches_statement hfirst h).bind ?_
      intro s' c₂ hs'
      obtain ⟨hs', h₂⟩ := hs'
      refine (ih hrest (Nat.lt_of_succ_lt_succ hfuel) h₂).bind fun read c₃ hread => ?_
      exact ends_pure.mpr (by rw [List.map_cons, hs', hread, List.map_cons])

end Parse

theorem exists_parseScript {script : List Statement} (hs : ∀ s ∈ script, s.Legible) :
    ∃ script', parseScript (String.join (script.map Statement.text)) = .ok script' ∧
      script'.map Statement.bare = script.map Statement.normal := by
  have h := Cursor.shows_ofText (toList_join_texts script) (spaced_script hs)
  -- every statement has a word, so the tokens are fuel enough
  have hlength := Parse.length_le_scriptWords script
  have hshown := h.solidLength_le
  have hread := Parse.reaches_statementsWithin hs (Nat.lt_succ_of_le (hlength.trans hshown)) h
  have hstatements : Parse.Reaches Parse.statements
      (.ofText (String.join (script.map Statement.text))) fun read _ =>
        read.map Statement.bare = script.map Statement.normal := by
    unfold Parse.statements
    rw [Parse.Reaches, Parse.ends_bind, Parse.ends_bound]
    exact hread
  obtain ⟨script', c, hp, hscript⟩ := hstatements.exists_eq
  exact ⟨script', by rw [parseScript, hp], hscript⟩

/-- A program that was read from a text, or built from the grammar, is read again from what is
printed of it, but for spans and for minus signs that become part of a number. -/
theorem printed_script_read_back {script : List Statement}
    (h : (∃ source, parseScript source = .ok script) ∨ ∀ s ∈ script, s.FromGrammar) :
    ∃ script', parseScript (String.join (script.map Statement.text)) = .ok script' ∧
      script'.map Statement.bare = script.map Statement.normal := by
  apply exists_parseScript
  rcases h with ⟨source, h⟩ | h
  · exact legible_of_parseScript h
  · exact fun s hs => (h s hs).legible

/-- A program that was read, with operators that lack operands, and one that no text is read as. -/
theorem printed_script_read_back_of_signs :
    let source := "let a = - -9223372036854775808; f([[1, g(- 0)], []], 2 * * -(x));"
    let zero : Item Operand := .operand (.number ⟨0, nowhere⟩)
    let minus : Item Operand := .unary ⟨.neg, nowhere⟩
    let built : List Statement :=
      [.declaration ⟨⟨"a", nowhere⟩, ⟨[minus, minus, zero], nowhere⟩, nowhere⟩]
    (∃ script, parseScript source = .ok script ∧
      ∃ script', parseScript (String.join (script.map Statement.text)) = .ok script' ∧
        script'.map Statement.bare = script.map Statement.normal) ∧
    (∀ s ∈ built, s.FromGrammar) ∧
    built.map Statement.normal =
      [.declaration ⟨⟨"a", nowhere⟩, ⟨[minus, zero], nowhere⟩, nowhere⟩] ∧
    ∃ script', parseScript (String.join (built.map Statement.text)) = .ok script' ∧
      script'.map Statement.bare = built.map Statement.normal := by
  intro source zero minus built
  have hread : (parseScript source).isOk = true := by decide +kernel
  have hbuilt : ∀ s ∈ built, s.FromGrammar := by
    refine List.forall_mem_singleton.mpr ⟨by decide +kernel, ?_, ?_⟩
    · exact List.forall_mem_singleton.mpr (.term (.sign _ (.sign _ (.operand _))))
    · refine List.forall_mem_singleton.mpr fun x hx => ?_
      have hx : x = .number ⟨0, nowhere⟩ := by simpa [zero, minus] using hx
      rw [hx]
      trivial
  refine ⟨?_, hbuilt, rfl, printed_script_read_back (.inr hbuilt)⟩
  cases hp : parseScript source with
  | ok script => exact ⟨script, rfl, printed_script_read_back (.inl ⟨source, hp⟩)⟩
  | error fault =>
    rw [hp] at hread
    cases hread

end MatrixScript
