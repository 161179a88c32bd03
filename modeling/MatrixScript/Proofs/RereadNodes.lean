import MatrixScript.Proofs.RereadTokens
import MatrixScript.Proofs.Slices

/-!
# Reading nodes again

The slice that the span of a node cuts out of the text, and nothing around it, is read as that node
at the start of the slice.
-/

namespace MatrixScript

open Parse

variable {text : String}

/-! ## Reading a whole text as a node -/

/-- The step returns `x`, with no more than blanks left of the text. -/
def ReadsAll {α : Type} (p : Parse α) (text : String) (x : α) : Prop :=
  ∃ c, p (.ofText text) = .ok x c ∧ c.peek? = none

/-- The text is read as the node and nothing else, a call as an expression that holds just it. -/
def Node.ReadFrom (text : String) : Node → Prop
  | .declaration d => ReadsAll Parse.declaration text d
  | .call c => ∀ ends, ReadsAll (Parse.expression ends) text ⟨[.operand (.call c)], c.span⟩
  | .expression ends e => ReadsAll (Parse.expression ends) text e
  | .number n => ReadsAll Parse.numeral text n
  | .symbol s => ReadsAll Parse.name text s
  | .row r => ReadsAll Parse.row text r
  | .matrix m => ReadsAll Parse.matrix text m

theorem readsAll_of_ends {α : Type} {p : Parse α} {x : α} {E : Fault → Prop}
    (h : Ends E p (.ofText text) fun y c => y = x ∧ c.Sees text []) (hE : ∀ fault, ¬ E fault) :
    ReadsAll p text x := by
  unfold Ends at h
  split at h
  · next y c hp =>
    obtain ⟨rfl, hc⟩ := h
    exact ⟨c, hp, hc.peek?⟩
  · next fault _ _ => exact absurd h (hE fault)

theorem sees_append_nil (text : String) :
    (Cursor.ofText text).Sees text (solid (tokenize text) ++ []) := by
  rw [List.append_nil]
  exact Cursor.sees_ofText text

theorem readsAll_of_rereads {α γ : Type} {p : Parse α} {look : α → γ}
    {follows : List Token → Prop} {x : α}
    (h : Rereads .exact text p look follows x (solid (tokenize text))) (hend : follows [])
    (hlook : ∀ y, look y = look x → y = x) : ReadsAll p text x := by
  obtain ⟨c, hp, hc⟩ := h.exists_eq hlook (sees_append_nil text) hend
  exact ⟨c, hp, hc.peek?⟩

namespace View

theorem expression_exact (e : Expression) : View.exact.expression e = e := relocate_id e

theorem row_exact (row : Row) : View.exact.row row = row := by
  obtain ⟨elements, span⟩ := row
  have helements : recast id id = id := funext relocate_id
  change recastRow id id ⟨elements, span⟩ = _
  rw [recastRow, recastAll_eq_map, helements, List.map_id]
  rfl

theorem matrix_exact (m : MatrixLiteral) : View.exact.matrix m = m :=
  Operand.matrix.inj (recastOperand_id (.matrix m))

end View

theorem ExpressionYields.readsAll {ends : Ending} {e : Expression}
    (h : ExpressionYields ends e (solid (tokenize text))) :
    ReadsAll (Parse.expression ends) text e :=
  readsAll_of_rereads (rereads_expression h) (fun _ ht => by cases ht) fun y hy => by
    rwa [View.expression_exact, View.expression_exact] at hy

theorem NumeralYields.readsAll {n : Located Int64} (h : NumeralYields n (solid (tokenize text))) :
    ReadsAll Parse.numeral text n := by
  have hc := sees_append_nil text
  have hE : ∀ fault : Fault, ¬ (fun _ => False) fault := fun _ => id
  generalize hts : solid (tokenize text) = ts at h hc
  cases h with
  | @plain t hk hsize =>
    refine readsAll_of_ends ((ends_numeral none hc hk (by simp) (by simp [Followed])
      (absurd hsize)).mono ?_) hE
    rintro y c ⟨-, rfl, hc'⟩
    exact ⟨rfl, hc'⟩
  | @signed m t hm hk hj hsize =>
    refine readsAll_of_ends ((ends_numeral (some m) hc hk ?_ (by simp [Followed])
      (absurd hsize)).mono ?_) hE
    · rintro _ ⟨⟩
      exact ⟨hm, hj⟩
    · rintro y c ⟨-, rfl, hc'⟩
      exact ⟨rfl, hc'⟩

theorem SymbolYields.readsAll {s : Located String} (h : SymbolYields s (solid (tokenize text))) :
    ReadsAll Parse.name text s := by
  have hc := Cursor.sees_ofText text
  generalize hts : solid (tokenize text) = ts at h hc
  obtain ⟨hk⟩ := h
  refine readsAll_of_ends (E := fun _ => False) ?_ fun _ => id
  unfold Parse.name
  refine (ends_token_seen hc hk).bind ?_
  rintro t c ⟨rfl, hc'⟩
  exact ⟨rfl, hc'⟩

theorem CallYields.expression {c : Call} {ts : List Token} (h : CallYields c ts) (ends : Ending) :
    ExpressionYields ends ⟨[.operand (.call c)], c.span⟩ ts := by
  have hitems : ItemsYield ends 0 .operand [.operand (.call c)] (ts ++ []) :=
    .operand (by simp) (fun _ m hm => by cases hm) (.call h) .nil
  rw [List.append_nil] at hitems
  exact .mk hitems

theorem Node.Yields.readFrom {n : Node} (h : n.Yields (solid (tokenize text))) :
    n.ReadFrom text := by
  cases n with
  | declaration d =>
    refine readsAll_of_rereads (rereads_declaration h) trivial fun y hy => ?_
    have hstatement := (Statement.relocate_id _).symm.trans (hy.trans (Statement.relocate_id _))
    exact Statement.declaration.inj hstatement
  | call c => exact fun ends => (CallYields.expression h ends).readsAll
  | expression ends e => exact ExpressionYields.readsAll h
  | number n => exact NumeralYields.readsAll h
  | symbol s => exact SymbolYields.readsAll h
  | row r =>
    refine readsAll_of_rereads (rereads_rowOf (rereadsBelow_expression _) h (Nat.le_refl _)) trivial
      fun y hy => ?_
    rwa [View.row_exact, View.row_exact] at hy
  | matrix m =>
    refine readsAll_of_rereads (rereads_matrixOf (rereadsBelow_expression _) h (Nat.le_refl _))
      trivial fun y hy => ?_
    rwa [View.matrix_exact, View.matrix_exact] at hy

/-! ## Nodes at another place -/

theorem Node.Yields.relocate {g : Nat → Nat} {n : Node} {ts : List Token} (hk : KeepsGaps g ts)
    (h : n.Yields ts) : (n.relocate g).Yields (ts.map (Token.relocate g)) := by
  cases n with
  | declaration d => exact DeclarationYields.relocate hk h
  | call c => exact CallYields.relocate hk h
  | expression ends e => exact ExpressionYields.relocate hk h
  | number n => exact NumeralYields.relocate h
  | symbol s =>
    obtain @⟨t, ht⟩ := h
    exact .mk (t := t.relocate g) ht
  | row r =>
    have hrow := BracketedYields.relocate (f := MatrixScript.relocate g) h hk
      fun e _ us hus he => ExpressionYields.relocate hus he
    obtain ⟨elements, span⟩ := r
    change BracketedYields _ (recastRow g id ⟨elements, span⟩) _
    rw [recastRow, recastAll_eq_map]
    exact hrow
  | matrix m =>
    have hmoved := (Operand.matrix m).yieldsMoved ts hk (.matrix h)
    cases hmoved with
    | matrix hmoved => exact hmoved

/-! ## The nodes of a text -/

section
variable {us : List Token} {n : Node}

theorem Node.Yields.exists_slice (h : n.Yields us) (hus : us <:+: solid (tokenize text)) :
    ∃ slice, Slice text n.span slice ∧ (n.relocate (· - n.span.start)).ReadFrom slice := by
  obtain ⟨before, inside, after, htokens, rfl, hinside⟩ := h.covers.exists_inside hus
  obtain ⟨hsolid, hgaps⟩ := hinside.solid_tokenize htokens
  refine ⟨writing inside, hinside.slice htokens, Node.Yields.readFrom ?_⟩
  rw [hsolid]
  exact h.relocate hgaps

theorem inOrder_tokenize (text : String) :
    InOrder 0 ((solid (tokenize text)).map (·.span)) text.utf8ByteSize := by
  have hplace := inOrder_place 0 (wordsOf text)
  rw [← tokenize_eq_place, Nat.zero_add, wordsSize_wordsOf] at hplace
  exact hplace.sublist (List.filter_sublist.map _)

/-- The children of a node lie inside it, one after the other. -/
theorem Node.Yields.inOrder_children (h : n.Yields us) (hus : us <:+: solid (tokenize text)) :
    InOrder n.span.start (n.children.map Node.span) n.span.stop := by
  obtain ⟨before, after, htokens⟩ := hus
  have horder := inOrder_tokenize text
  rw [← htokens, List.map_append, List.map_append] at horder
  obtain ⟨_, hleft, -⟩ := horder.append
  obtain ⟨_, -, hmiddle⟩ := hleft.append
  obtain ⟨-, -, hinside⟩ := h.covers.inOrder hmiddle
  exact (h.blocks.inOrder hinside).sublist (spans_children_sublist n)

end

/-! ## The outline of a call -/

structure Outlined (text : String) (c : Call) : Prop where
  head : ∃ blanks : String, (∀ b ∈ blanks.toList, TokenKind.isBlankChar b) ∧
    Slice text c.head (c.name.value ++ blanks ++ "(")
  tail : Slice text c.tail ")"
  start : c.head.start = c.span.start
  stop : c.tail.stop = c.span.stop

section
variable {t first last : Token}

theorem valid_of_mem_solid {us : List Token} (h : us <:+: solid (tokenize text)) (ht : t ∈ us) :
    t.word.Valid :=
  valid_of_mem_tokenize t (List.mem_of_mem_filter (h.subset ht))

theorem writing_singleton (t : Token) : writing [t] = t.lexeme := by
  rw [writing, List.map_singleton, spelling, List.flatMap_singleton, String.ofList_toList]
  rfl

theorem slice_token (h : [t] <:+: solid (tokenize text)) : Slice text t.span t.lexeme := by
  obtain ⟨before, after, htokens, -⟩ := exists_single h
  have hslice := t.covers.slice htokens
  rwa [writing_singleton] at hslice

/-- Between two tokens that follow each other there are blanks only. -/
theorem exists_slice_through (h : [first, last] <:+: solid (tokenize text)) :
    ∃ blanks : String, (∀ b ∈ blanks.toList, TokenKind.isBlankChar b) ∧
      Slice text (first.span.through last.span) (first.lexeme ++ blanks ++ last.lexeme) := by
  have hbetween : first :: ([] ++ [last]) <:+: solid (tokenize text) := h
  obtain ⟨before, inside, after, htokens, hinside, -⟩ := exists_between hbetween
  refine ⟨writing inside, ?_, ?_⟩
  · rw [writing, String.toList_ofList]
    intro b hb
    obtain ⟨w, hw, hb⟩ := List.mem_flatMap.mp hb
    obtain ⟨t, ht, rfl⟩ := List.mem_map.mp hw
    have hblank : t.isBlank = true := by simpa using List.filter_eq_nil_iff.mp hinside t ht
    have hmem : t ∈ tokenize text := by simp [htokens, ht]
    exact (valid_of_mem_tokenize t hmem).isBlankChar hblank b hb
  · have hslice := (covers_concat first inside last).slice htokens
    have hwriting : writing (first :: (inside ++ [last])) =
        first.lexeme ++ writing inside ++ last.lexeme := by
      rw [← List.singleton_append, writing_append, writing_append, writing_singleton,
        writing_singleton, String.append_assoc]
    rwa [hwriting] at hslice

theorem CallYields.outlined {c : Call} {us : List Token} (h : CallYields c us)
    (hus : us <:+: solid (tokenize text)) : Outlined text c := by
  obtain @⟨name, opening, closing, args, ts, hn, ho, hc, hargs⟩ := h
  have hhead : [name, opening] <:+: solid (tokenize text) :=
    (List.prefix_append [name, opening] (ts ++ [closing])).isInfix.trans hus
  have hopening : [opening] <:+: solid (tokenize text) :=
    (List.suffix_cons name [opening]).isInfix.trans hhead
  have hclosing : [closing] <:+: solid (tokenize text) :=
    (List.suffix_append (name :: opening :: ts) [closing]).isInfix.trans hus
  have hopen : opening.lexeme = "(" :=
    (valid_of_mem_solid hopening List.mem_cons_self).lexeme_of_openParen ho
  have hclose : closing.lexeme = ")" :=
    (valid_of_mem_solid hclosing List.mem_cons_self).lexeme_of_closeParen hc
  have hopening := slice_token hopening
  have hclosing := slice_token hclosing
  rw [hopen] at hopening
  rw [hclose] at hclosing
  have hopenStop : opening.span.stop = opening.span.start + 1 := hopening.stop_eq
  have hcloseStop : closing.span.stop = closing.span.start + 1 := hclosing.stop_eq
  obtain ⟨blanks, hblanks, hslice⟩ := exists_slice_through hhead
  rw [hopen, Span.through, hopenStop] at hslice
  refine ⟨⟨blanks, hblanks, hslice⟩, ?_, rfl, rfl⟩
  have htail : (⟨closing.span.stop - 1, closing.span.stop⟩ : Span) = closing.span := by
    rw [hcloseStop, Nat.add_sub_cancel, ← hcloseStop]
  rw [← htail] at hclosing
  exact hclosing

end

/-! ## Scripts -/

/-- Every node of a script is read from its own slice of the text as it is read in the text, and its
children lie inside it one after the other, as the statements do in the text. -/
theorem nodes_of_parseScript {script : List Statement} (h : parseScript text = .ok script) :
    InOrder 0 (script.map Statement.span) text.utf8ByteSize ∧
      ∀ n, NodeOf script n →
        (∃ slice, Slice text n.span slice ∧ (n.relocate (· - n.span.start)).ReadFrom slice) ∧
        InOrder n.span.start (n.children.map Node.span) n.span.stop ∧
        ∀ c, n = .call c → Outlined text c := by
  have hscript := scriptYields_of_parseScript h
  refine ⟨hscript.blocks.inOrder (inOrder_tokenize text), fun n hn => ?_⟩
  obtain ⟨us, hus, hyields⟩ := hn.yields hscript
  refine ⟨hyields.exists_slice hus, hyields.inOrder_children hus, ?_⟩
  rintro c rfl
  exact CallYields.outlined hyields hus

/-- A program with a node of each kind. -/
theorem nodes_of_parseScript_of_calls :
    let text := "let a = [[1, - 2], [f (x)]];\n print(rank(a), -3 * (a - 1));"
    ∃ script, parseScript text = .ok script ∧
      InOrder 0 (script.map Statement.span) text.utf8ByteSize ∧
      ∀ n, NodeOf script n →
        (∃ slice, Slice text n.span slice ∧ (n.relocate (· - n.span.start)).ReadFrom slice) ∧
        InOrder n.span.start (n.children.map Node.span) n.span.stop ∧
        ∀ c, n = .call c → Outlined text c := by
  intro text
  have hok : (parseScript text).isOk = true := by decide +kernel
  cases hp : parseScript text with
  | ok script => exact ⟨script, rfl, nodes_of_parseScript hp⟩
  | error fault => rw [hp] at hok; cases hok

end MatrixScript
