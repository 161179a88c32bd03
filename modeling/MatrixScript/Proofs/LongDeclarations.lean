import MatrixScript.Proofs.JoinedScripts
import MatrixScript.Proofs.PrintedWords
import MatrixScript.Proofs.ReadExpressions
import MatrixScript.Proofs.RereadNodes
import MatrixScript.Proofs.StatementFrames

/-!
# The long form of a declaration

`init(x, e);` does what `let x = e;` does.  The text of the expression is at the same offset in both
forms, between other words, so both are read with the same expression; only the name is at another
place.
-/

namespace MatrixScript

def shortForm (x e : String) : String := "let " ++ x ++ " = " ++ e ++ ";"

def longForm (x e : String) : String := "init(" ++ x ++ ", " ++ e ++ ");"

/-! ## A text between words -/

theorem Word.Valid.breaks_of_apart {v w : Word} (hv : v.Valid) (hw : w.Valid) (h : v.Apart w) :
    v.Breaks w := by
  obtain ⟨c, rest, -, rfl⟩ := hv
  obtain ⟨d, rest', -, rfl⟩ := hw
  rintro ⟨c', hc', d', hd', hgoes⟩
  simp only [ofChars, Token.word, Token.ofChars, String.toList_ofList, List.head?_cons,
    Option.mem_def, Option.some.injEq] at hc' hd'
  subst hc' hd'
  rcases TokenKind.eq_of_goesOnWith hgoes with ⟨hblank, -⟩ | ⟨hk, hk'⟩
  · rw [isBlank_ofChars]
    exact hblank
  · exact absurd (isLetters_ofChars hk' _) (h (isLetters_ofChars hk _))

theorem Spaced.breaks {ws : List Word} (h : Spaced ws) : ws.IsChain Word.Breaks := by
  induction ws with
  | nil => exact .nil
  | cons v ws ih =>
    obtain ⟨hv, hws⟩ := List.forall_mem_cons.mp h.valid
    cases ws with
    | nil => exact .singleton v
    | cons w ws =>
      obtain ⟨hapart, hrest⟩ := List.isChain_cons_cons.mp h.apart
      have hw : w.Valid := hws w List.mem_cons_self
      exact List.isChain_cons_cons.mpr ⟨hv.breaks_of_apart hw hapart, ih ⟨hws, hrest⟩⟩

theorem solid_tokenize_between {text e : String} {vs ws : List Word}
    (htext : text.toList = spelling vs ++ (e.toList ++ spelling ws)) (hvs : Spaced vs)
    (hws : Spaced ws) (hblank : ∀ v ∈ vs.getLast?, v.isBlank) (hfollow : CanFollow ws) :
    solid (tokenize text) = solid (place 0 vs) ++
      ((solid (tokenize e)).map (Token.relocate (· + wordsSize vs)) ++
        solid (place (wordsSize vs + e.utf8ByteSize) ws)) := by
  have hspelling : text.toList = spelling (vs ++ (wordsOf e ++ ws)) := by
    rw [htext, ← spelling_wordsOf e]
    simp [spelling]
  have hvalid : ∀ w ∈ vs ++ (wordsOf e ++ ws), w.Valid :=
    List.forall_mem_append.mpr
      ⟨hvs.valid, List.forall_mem_append.mpr ⟨valid_of_mem_wordsOf, hws.valid⟩⟩
  have hinside : (wordsOf e).IsChain Word.Breaks :=
    (isChain_wordsOf e).imp fun v w hvw hgoes => absurd hgoes hvw
  have hchain : (vs ++ (wordsOf e ++ ws)).IsChain Word.Breaks := by
    refine List.isChain_append.mpr ⟨hvs.breaks, List.isChain_append.mpr
      ⟨hinside, hws.breaks, fun v hv w hw => ?_⟩, fun v hv w hw _ => hblank v hv⟩
    refine (valid_of_mem_wordsOf v (List.mem_of_getLast? hv)).breaks_of_apart
      (hws.valid w (List.mem_of_mem_head? hw)) fun _ => ?_
    simpa using hfollow w hw
  rw [solid_tokenize hspelling hvalid hchain, place_append, place_append, solid_append,
    solid_append, place_add, solid_relocate, ← tokenize_eq_place, wordsSize_wordsOf]
  simp

/-! ## The tokens of the two forms -/

section
variable (x e : String)

def valueOffset : Nat := 7 + x.utf8ByteSize

def valueTokens : List Token :=
  (solid (tokenize e)).map (Token.relocate (· + valueOffset x))

def shortWords : List Word :=
  [.keyword, .char ' ', ⟨.name, x⟩, .char ' ', .char '=', .char ' ']

def longWords : List Word :=
  [⟨.name, "init"⟩, .char '(', ⟨.name, x⟩, .char ',', .char ' ']

theorem wordsSize_shortWords : wordsSize (shortWords x) = valueOffset x := by
  have hsizes : (shortWords x).map Word.size = [3, 1, x.utf8ByteSize, 1, 1, 1] := rfl
  rw [wordsSize, hsizes, valueOffset]
  simp
  omega

theorem wordsSize_longWords : wordsSize (longWords x) = valueOffset x := by
  have hsizes : (longWords x).map Word.size = [4, 1, x.utf8ByteSize, 1, 1] := rfl
  rw [wordsSize, hsizes, valueOffset]
  simp
  omega

variable {x}

theorem spaced_shortWords (hx : IsName x) : Spaced (shortWords x) :=
  (((((spaced_nil.char rfl).char rfl).char rfl).name hx (canFollow_cons rfl _)).char rfl).cons
    Word.valid_keyword (canFollow_cons rfl _)

theorem spaced_longWords (hx : IsName x) : Spaced (longWords x) :=
  ((((spaced_nil.char rfl).char rfl).name hx (canFollow_cons rfl _)).char rfl).name (by decide)
    (canFollow_cons rfl _)

theorem solid_tokenize_shortForm (hx : IsName x) :
    solid (tokenize (shortForm x e)) =
      Word.keyword.tokenAt 0 :: Word.tokenAt ⟨.name, x⟩ 4 ::
        (Word.char '=').tokenAt (4 + x.utf8ByteSize + 1) ::
        (valueTokens x e ++ [(Word.char ';').tokenAt (valueOffset x + e.utf8ByteSize)]) := by
  have htext : (shortForm x e).toList =
      spelling (shortWords x) ++ (e.toList ++ spelling [.char ';']) := by
    simp [shortForm, spelling, shortWords, Word.keyword, Word.char, Word.ofChars, Token.word,
      Token.ofChars]
  have hblank : ∀ v ∈ (shortWords x).getLast?, v.isBlank := by
    rintro v ⟨⟩
    rfl
  rw [solid_tokenize_between htext (spaced_shortWords hx) (spaced_nil.char rfl) hblank
    (canFollow_cons rfl _), wordsSize_shortWords]
  rfl

theorem solid_tokenize_longForm (hx : IsName x) :
    solid (tokenize (longForm x e)) =
      Word.tokenAt ⟨.name, "init"⟩ 0 :: (Word.char '(').tokenAt 4 :: Word.tokenAt ⟨.name, x⟩ 5 ::
        (Word.char ',').tokenAt (5 + x.utf8ByteSize) ::
        (valueTokens x e ++ [(Word.char ')').tokenAt (valueOffset x + e.utf8ByteSize),
          (Word.char ';').tokenAt (valueOffset x + e.utf8ByteSize + 1)]) := by
  have htext : (longForm x e).toList =
      spelling (longWords x) ++ (e.toList ++ spelling [.char ')', .char ';']) := by
    simp [longForm, spelling, longWords, Word.char, Word.ofChars, Token.word, Token.ofChars]
  have hblank : ∀ v ∈ (longWords x).getLast?, v.isBlank := by
    rintro v ⟨⟩
    rfl
  rw [solid_tokenize_between htext (spaced_longWords hx) ((spaced_nil.char rfl).char rfl) hblank
    (canFollow_cons rfl _), wordsSize_longWords]
  rfl

end

/-! ## Reading the two forms -/

section
variable {x e : String} {ts us es : List Token}

/-- Outside matrices the token that ends an expression makes no difference. -/
theorem ItemsYield.argument {depth : Nat} {slot : Slot} {items : List (Item Operand)}
    (h : ItemsYield .semicolon depth slot items ts) : ItemsYield .argument depth slot items ts := by
  induction items generalizing depth slot ts with
  | nil => cases h; exact .nil
  | cons item items ih =>
    cases h with
    | operand hslot _ hx h => exact .operand hslot (fun hends => by cases hends) hx (ih h)
    | opening hk hslot h => exact .opening hk hslot (ih h)
    | closing hk hslot h => exact .closing hk hslot (ih h)
    | unary hk hslot hj h => exact .unary hk hslot hj (ih h)
    | binary hk hslot h => exact .binary hk hslot (ih h)

theorem ExpressionYields.argument {value : Expression} (h : ExpressionYields .semicolon value ts) :
    ExpressionYields .argument value ts := by
  obtain ⟨h⟩ := h
  exact .mk h.argument

theorem stop_le_of_mem_valueTokens {t : Token} (ht : t ∈ valueTokens x e) :
    t.span.stop ≤ valueOffset x + e.utf8ByteSize := by
  obtain ⟨u, hu, rfl⟩ := List.mem_map.mp ht
  have horder := (inOrder_tokenize e).sublist
    (List.singleton_sublist.mpr (List.mem_map_of_mem hu))
  have hstop : u.span.stop ≤ e.utf8ByteSize := horder.2.2
  change u.span.stop + valueOffset x ≤ _
  omega

theorem utf8ByteSize_shortForm (x e : String) :
    (shortForm x e).utf8ByteSize = valueOffset x + e.utf8ByteSize + 1 := by
  have hlet : "let ".utf8ByteSize = 4 := rfl
  have hassign : " = ".utf8ByteSize = 3 := rfl
  have hsemicolon : ";".utf8ByteSize = 1 := rfl
  simp only [shortForm, String.utf8ByteSize_append, hlet, hassign, hsemicolon, valueOffset]
  omega

/-- A list that goes on after the token with the last stop does not. -/
theorem eq_of_append_last {semicolon last : Token} (h : ts ++ [semicolon] ++ us = es ++ [last])
    (hstop : semicolon.span.stop = last.span.stop) (hes : ∀ t ∈ es, t.span.stop < last.span.stop) :
    ts = es := by
  rcases List.eq_nil_or_concat' us with rfl | ⟨us, t, rfl⟩
  · rw [List.append_nil] at h
    exact (List.append_inj' h rfl).1
  · rw [← List.append_assoc] at h
    have hmem : semicolon ∈ es := by
      rw [← (List.append_inj' h rfl).1]
      simp
    exact absurd hstop (hes semicolon hmem).ne

/-- A declaration that takes up the whole text has all that is between the words for its value. -/
theorem yields_of_shortForm (hx : IsName x) {d : Declaration}
    (hd : parseScript (shortForm x e) = .ok [.declaration d])
    (hspan : d.span = ⟨0, (shortForm x e).utf8ByteSize⟩) :
    d.name = ⟨x, ⟨4, 4 + x.utf8ByteSize⟩⟩ ∧
      ExpressionYields .semicolon d.value (valueTokens x e) := by
  have h := parseScript_eq_ok_iff.mp hd
  rw [solid_tokenize_shortForm e hx] at h
  generalize hts : Word.keyword.tokenAt 0 :: _ = ts at h
  cases h with
  | skip hs h =>
    obtain ⟨rfl, -⟩ := List.cons.inj hts
    exact absurd hs (by decide)
  | cons hs h =>
    cases hs with
    | declaration hdeclared =>
      obtain @⟨keyword, name, assign, semicolon, value, vs, -, -, -, -, hvalue⟩ := hdeclared
      simp only [List.cons_append, List.cons.injEq] at hts
      obtain ⟨-, rfl, -, hts⟩ := hts
      refine ⟨rfl, ?_⟩
      have hstop : semicolon.span.stop = (shortForm x e).utf8ByteSize := congrArg Span.stop hspan
      rw [utf8ByteSize_shortForm] at hstop
      have hvs : vs = valueTokens x e := eq_of_append_last hts.symm hstop fun t ht =>
        Nat.lt_succ_of_le (stop_le_of_mem_valueTokens ht)
      rwa [hvs] at hvalue

theorem parseScript_shortForm (hx : IsName x) {value : Expression}
    (h : ExpressionYields .semicolon value (valueTokens x e)) :
    parseScript (shortForm x e) = .ok [.declaration ⟨⟨x, ⟨4, 4 + x.utf8ByteSize⟩⟩, value,
      ⟨0, valueOffset x + e.utf8ByteSize + 1⟩⟩] := by
  rw [parseScript_eq_ok_iff, solid_tokenize_shortForm e hx]
  have hdeclaration := @DeclarationYields.mk (Word.keyword.tokenAt 0) (Word.tokenAt ⟨.name, x⟩ 4)
    ((Word.char '=').tokenAt (4 + x.utf8ByteSize + 1))
    ((Word.char ';').tokenAt (valueOffset x + e.utf8ByteSize)) value _ rfl rfl rfl rfl h
  have hscript := ScriptYields.cons (.declaration hdeclaration) .nil
  rwa [List.append_nil] at hscript

theorem symbolYields_argument {t : Token} (ht : t.kind = .name) :
    ExpressionYields .argument ⟨[.operand (.symbol ⟨t.lexeme, t.span⟩)], t.span⟩ [t] :=
  .mk (.operand (by simp) (fun hends => by cases hends) (.symbol ht) .nil)

theorem parseScript_longForm (hx : IsName x) {value : Expression}
    (h : ExpressionYields .argument value (valueTokens x e)) :
    parseScript (longForm x e) = .ok [.call ⟨⟨"init", ⟨0, 4⟩⟩,
      [⟨[.operand (.symbol ⟨x, ⟨5, 5 + x.utf8ByteSize⟩⟩)], ⟨5, 5 + x.utf8ByteSize⟩⟩, value],
      ⟨0, valueOffset x + e.utf8ByteSize + 1⟩, ⟨4, valueOffset x + e.utf8ByteSize + 1⟩⟩] := by
  rw [parseScript_eq_ok_iff, solid_tokenize_longForm e hx]
  have hname : ExpressionYields .argument _ [Word.tokenAt ⟨.name, x⟩ 5] :=
    symbolYields_argument rfl
  have hcomma : ((Word.char ',').tokenAt (5 + x.utf8ByteSize)).kind = .comma := rfl
  have hcall := @CallYields.mk (Word.tokenAt ⟨.name, "init"⟩ 0) ((Word.char '(').tokenAt 4)
    ((Word.char ')').tokenAt (valueOffset x + e.utf8ByteSize)) _ _ rfl rfl rfl
    (.cons hname hcomma (.singleton h))
  have hscript := ScriptYields.cons (@StatementYields.call _ _
    ((Word.char ';').tokenAt (valueOffset x + e.utf8ByteSize + 1)) hcall rfl) .nil
  simp only [List.append_nil, List.append_assoc, List.cons_append, List.nil_append] at hscript
  exact hscript

theorem keepsGaps_valueTokens (x e : String) :
    KeepsGaps (· - valueOffset x) (valueTokens x e) := by
  intro t ht u hu htouch
  obtain ⟨t, -, rfl⟩ := List.mem_map.mp ht
  obtain ⟨u, -, rfl⟩ := List.mem_map.mp hu
  simpa [Token.relocate, Span.relocate] using htouch

theorem relocate_valueTokens (x e : String) :
    (valueTokens x e).map (Token.relocate (· - valueOffset x)) = solid (tokenize e) := by
  rw [valueTokens, List.map_map]
  refine List.map_id'' (fun t => ?_) _
  simp [Token.relocate, Span.relocate]

theorem exists_value_of_shortForm (hx : IsName x) {d : Declaration}
    (hd : parseScript (shortForm x e) = .ok [.declaration d])
    (hspan : d.span = ⟨0, (shortForm x e).utf8ByteSize⟩) :
    ∃ value, ExpressionYields .semicolon value (solid (tokenize e)) ∧
      d.value = relocate (· + valueOffset x) value := by
  obtain ⟨-, hyields⟩ := yields_of_shortForm hx hd hspan
  have hvalue := hyields.relocate (keepsGaps_valueTokens x e)
  rw [relocate_valueTokens] at hvalue
  refine ⟨_, hvalue, ?_⟩
  -- the value moved there and back yields the same tokens, so it is read from the same text
  have hback := parseScript_shortForm hx (hvalue.relocate (keepsGaps_add (valueOffset x) _))
  rw [hd] at hback
  simp only [Except.ok.injEq, List.cons.injEq, Statement.declaration.injEq, and_true] at hback
  exact congrArg Declaration.value hback

end

/-! ## Running the two forms -/

section
variable {x e : String}

open Eval

theorem wellRead_of_yields {ends : Ending} {value : Expression}
    (h : ExpressionYields ends value (solid (tokenize e))) :
    ∀ e' ∈ withSubexpressions value, WellRead e e' := by
  obtain ⟨c, hp, -⟩ := h.readsAll
  have hread := Parse.reader_expression ends (.ofText e) (Cursor.placed_ofText e)
  rw [Parse.Outcome, hp] at hread
  exact hread.2

theorem sound_of_yields {ends : Ending} {value : Expression}
    (h : ExpressionYields ends value (solid (tokenize e))) : Sound value := by
  obtain ⟨c, hp, -⟩ := h.readsAll
  have hneat := Parse.readsNeatly_expression ends (.ofText e) (Cursor.spelled_ofText e)
  obtain ⟨⟨-, hneat⟩, -⟩ := hneat.of_eq hp
  intro e' he'
  have hread := wellRead_of_yields h e' he'
  exact { toNeat := hneat e' he', reads := hread.reads, ne_nil := hread.ne_nil }

theorem boundaries_of_fault {ends : Ending} {value : Expression}
    (h : ExpressionYields ends value (solid (tokenize e))) {s s' : Session} {fault : Fault}
    (hrun : expression value s = .error fault s') :
    ∀ span ∈ fault.spans, IsBoundary e span.start ∧ IsBoundary e span.stop := by
  have hkeeps : ∀ e' ∈ withSubexpressions value, Eval.Keeps (onCharacters e) e' := fun e' he' =>
    keeps_of_through onCharacters_through fun span hspan =>
      have hwithin := (wellRead_of_yields h e' he').within span hspan
      ⟨hwithin.start, hwithin.stop⟩
  exact faultsAt_expression value hkeeps s fault s' hrun

def spanAfter (words : String) (start stop : Nat) : Span :=
  ⟨start + words.utf8ByteSize, stop + words.utf8ByteSize⟩

/-- The places of the name, or of the same part of the expression, in the short and in the long
form. -/
inductive SamePlace (x e : String) : Span → Span → Prop
  | name : SamePlace x e (spanAfter "let " 0 x.utf8ByteSize) (spanAfter "init(" 0 x.utf8ByteSize)
  | value {start stop : Nat} (hstart : IsBoundary e start) (hstop : IsBoundary e stop) :
    SamePlace x e (spanAfter ("let " ++ x ++ " = ") start stop)
      (spanAfter ("init(" ++ x ++ ", ") start stop)

/-- A run of the short and a run of the long form that end alike. -/
inductive SameEnd (x e : String) :
    EStateM.Result Fault Session Value → EStateM.Result Fault Session Value → Prop
  | ok (v : Value) (s : Session) : SameEnd x e (.ok v s) (.ok v s)
  | error (cause : Cause) (s : Session) {spans spans' : List Span}
    (h : List.Forall₂ (SamePlace x e) spans spans') :
    SameEnd x e (.error ⟨cause, spans⟩ s) (.error ⟨cause, spans'⟩ s)

theorem samePlace_name :
    SamePlace x e ⟨4, 4 + x.utf8ByteSize⟩ ⟨5, 5 + x.utf8ByteSize⟩ := by
  have hlet : "let ".utf8ByteSize = 4 := rfl
  have hinit : "init(".utf8ByteSize = 5 := rfl
  have hplace := SamePlace.name (x := x) (e := e)
  simpa only [spanAfter, hlet, hinit, Nat.zero_add, Nat.add_comm x.utf8ByteSize] using hplace

theorem samePlace_value {span : Span} (hstart : IsBoundary e span.start)
    (hstop : IsBoundary e span.stop) :
    SamePlace x e (span.relocate (· + valueOffset x)) (span.relocate (· + valueOffset x)) := by
  have hshort : ("let " ++ x ++ " = ").utf8ByteSize = valueOffset x := by
    have hlet : "let ".utf8ByteSize = 4 := rfl
    have hassign : " = ".utf8ByteSize = 3 := rfl
    rw [String.utf8ByteSize_append, String.utf8ByteSize_append, hlet, hassign, valueOffset]
    omega
  have hlong : ("init(" ++ x ++ ", ").utf8ByteSize = valueOffset x := by
    have hinit : "init(".utf8ByteSize = 5 := rfl
    have hcomma : ", ".utf8ByteSize = 2 := rfl
    rw [String.utf8ByteSize_append, String.utf8ByteSize_append, hinit, hcomma, valueOffset]
    omega
  have hplace := SamePlace.value (x := x) hstart hstop
  rwa [spanAfter, spanAfter, hshort, hlong] at hplace

theorem statements_singleton (st : Statement) : statements [st] = statement st :=
  bind_pure (statement st)

/-- A text that is read as one declaration, and the call of `init` it is short for, run alike in
every session. -/
theorem longForm_runs (hx : IsName x) {d : Declaration}
    (hd : parseScript (shortForm x e) = .ok [.declaration d])
    (hspan : d.span = ⟨0, (shortForm x e).utf8ByteSize⟩) :
    ∃ c, parseScript (longForm x e) = .ok [.call c] ∧
      ∀ s, SameEnd x e (script (shortForm x e) s) (script (longForm x e) s) := by
  obtain ⟨hname, hyields⟩ := yields_of_shortForm hx hd hspan
  obtain ⟨value, hvalue, hmoved⟩ := exists_value_of_shortForm hx hd hspan
  have hlong := parseScript_longForm hx hyields.argument
  refine ⟨_, hlong, fun s => ?_⟩
  have hshort : statement (.declaration d) =
      declaring ⟨4, 4 + x.utf8ByteSize⟩ [] x d.value := by
    change declaring d.name.span [] d.name.value d.value = _
    rw [hname]
  have hmonotone : Monotone (· + valueOffset x) := fun _ _ h => Nat.add_le_add_right h _
  have hexpression : expression d.value = relocated (· + valueOffset x) (expression value) := by
    rw [hmoved]
    exact expression_recast hmonotone keeps_id (sound_of_yields hvalue)
  rw [script_eq hd, script_eq hlong, statements_singleton, statements_singleton, hshort, statement,
    call_init _ rfl, declaring_apply, declaring_apply, hexpression]
  cases hrun : expression value s with
  | error fault s' =>
    rw [relocated_of_error _ hrun]
    refine .error fault.cause s' (List.forall₂_same.mpr ?_)
    refine List.forall_mem_map.mpr fun place hplace => ?_
    obtain ⟨hstart, hstop⟩ := boundaries_of_fault hvalue hrun place hplace
    exact samePlace_value hstart hstop
  | ok v s' =>
    rw [relocated_of_ok _ hrun]
    dsimp only
    split
    · exact .error (.reservedName x) s' (.cons samePlace_name .nil)
    · exact .ok v _

end

def declarationSpan? (text : String) : Option Span :=
  match parseScript text with
  | .ok [.declaration d] => some d.span
  | _ => none

theorem exists_of_declarationSpan? {text : String} {span : Span}
    (h : declarationSpan? text = some span) :
    ∃ d, parseScript text = .ok [.declaration d] ∧ d.span = span := by
  unfold declarationSpan? at h
  split at h
  · next d hd => exact ⟨d, hd, Option.some.inj h⟩
  · cases h

/-- A declaration that overwrites a variable its expression reads, and one of a reserved name. -/
theorem longForm_runs_of_overwritten :
    (∃ c, parseScript (longForm "y" "-(6 / y) ") = .ok [.call c] ∧
      ∀ s, SameEnd "y" "-(6 / y) " (Eval.script (shortForm "y" "-(6 / y) ") s)
        (Eval.script (longForm "y" "-(6 / y) ") s)) ∧
    ∃ c, parseScript (longForm "rank" "print(init(z, 1))") = .ok [.call c] ∧
      ∀ s, SameEnd "rank" "print(init(z, 1))"
        (Eval.script (shortForm "rank" "print(init(z, 1))") s)
        (Eval.script (longForm "rank" "print(init(z, 1))") s) := by
  constructor
  · have hspan : declarationSpan? (shortForm "y" "-(6 / y) ") =
        some ⟨0, (shortForm "y" "-(6 / y) ").utf8ByteSize⟩ := by decide +kernel
    obtain ⟨d, hd, hspan⟩ := exists_of_declarationSpan? hspan
    exact longForm_runs (by decide) hd hspan
  · have hspan : declarationSpan? (shortForm "rank" "print(init(z, 1))") =
        some ⟨0, (shortForm "rank" "print(init(z, 1))").utf8ByteSize⟩ := by decide +kernel
    obtain ⟨d, hd, hspan⟩ := exists_of_declarationSpan? hspan
    exact longForm_runs (by decide) hd hspan

end MatrixScript
