import MatrixScript.Program.Printer
import MatrixScript.Proofs.ProgramShapes

/-!
# The words of a printed program

`words` is what the printer writes, cut into words.  The words of a legible program are apart, so a
text that was printed has these words as its tokens.
-/

namespace MatrixScript

/-! ## Words -/

namespace Word

def char (c : Char) : Word := ofChars (.ofFirst c) [c]

theorem valid_char (c : Char) : (char c).Valid := ⟨c, [], List.forall_mem_nil _, rfl⟩

def keyword : Word := ofChars .name ['l', 'e', 't']

theorem valid_keyword : keyword.Valid :=
  ⟨'l', ['e', 't'], List.forall_mem_cons.mpr ⟨rfl, List.forall_mem_singleton.mpr rfl⟩, rfl⟩

def digits (n : Nat) : Word := ⟨.int, toString n⟩

theorem valid_digits (n : Nat) : (digits n).Valid := by
  cases hd : Nat.toDigits 10 n with
  | nil => exact absurd hd Nat.toDigits_ne_nil
  | cons c rest =>
    have hdigit : ∀ d ∈ c :: rest, d.isDigit = true := fun d hd' =>
      Nat.isDigit_of_mem_toDigits (by decide) (by decide) (hd ▸ hd')
    obtain ⟨hc, hrest⟩ := List.forall_mem_cons.mp hdigit
    have hfirst := TokenKind.ofFirst_of_isDigit hc
    refine ⟨c, rest, by rw [hfirst]; exact hrest, ?_⟩
    rw [hfirst, ← hd]
    simp [digits, ofChars, Token.word, Token.ofChars, Nat.repr_eq_ofList_toDigits]

end Word

def BinaryOp.word : BinaryOp → Word
  | .mul => .char '*'
  | .div => .char '/'
  | .add => .char '+'
  | .sub => .char '-'

def UnaryOp.word : UnaryOp → Word
  | .pos => .char '+'
  | .neg => .char '-'

def signedWords (minus : Bool) (size : Nat) : List Word :=
  if minus then [.char '-', .digits size] else [.digits size]

def numberWords (n : Int64) : List Word := signedWords (n.toInt < 0) n.toInt.natAbs

def listWords : List (List Word) → List Word
  | [] => []
  | [ws] => ws
  | ws :: rest => ws ++ .char ',' :: .char ' ' :: listWords rest

mutual

def Operand.words : Operand → List Word
  | .number n => numberWords n.value
  | .symbol s => [⟨.name, s.value⟩]
  | .call c => callWords c
  | .matrix m => matrixWords m

def callWords : Application Operand → List Word
  | ⟨name, args, _, _⟩ => ⟨.name, name.value⟩ :: .char '(' :: listWords (allWords args) ++ [.char ')']

def matrixWords : Bracketed (Bracketed (Infix Operand)) → List Word
  | ⟨rows, _⟩ => .char '[' :: listWords (rowsWords rows) ++ [.char ']']

def rowsWords : List (Bracketed (Infix Operand)) → List (List Word)
  | [] => []
  | row :: rows => rowWords row :: rowsWords rows

def rowWords : Bracketed (Infix Operand) → List Word
  | ⟨elements, _⟩ => .char '[' :: listWords (allWords elements) ++ [.char ']']

def allWords : List (Infix Operand) → List (List Word)
  | [] => []
  | e :: es => expressionWords e :: allWords es

def expressionWords : Infix Operand → List Word
  | ⟨items, _⟩ => itemsWords items

def itemsWords : List (Item Operand) → List Word
  | [] => []
  | item :: items => itemWords item ++ itemsWords items

def itemWords : Item Operand → List Word
  | .operand x => x.words
  | .binary op => [.char ' ', op.value.word, .char ' ']
  | .unary op => [op.value.word]
  | .opening _ => [.char '(']
  | .closing _ => [.char ')']

end

def Statement.words : Statement → List Word
  | .declaration d =>
    .keyword :: .char ' ' :: ⟨.name, d.name.value⟩ :: .char ' ' :: .char '=' ::
      .char ' ' :: expressionWords d.value ++ [.char ';']
  | .call c => callWords c ++ [.char ';']

theorem allWords_eq_map (es : List Expression) : allWords es = es.map expressionWords := by
  induction es with
  | nil => rfl
  | cons e es ih => rw [allWords, ih, List.map_cons]

theorem rowsWords_eq_map (rows : List Row) : rowsWords rows = rows.map rowWords := by
  induction rows with
  | nil => rfl
  | cons row rows ih => rw [rowsWords, ih, List.map_cons]

/-! ## Texts -/

@[simp] theorem spelling_nil : spelling [] = [] := rfl

@[simp] theorem spelling_cons (w : Word) (ws : List Word) :
    spelling (w :: ws) = w.lexeme.toList ++ spelling ws := rfl

@[simp] theorem spelling_append (ws ws' : List Word) :
    spelling (ws ++ ws') = spelling ws ++ spelling ws' := List.flatMap_append

@[simp] theorem Word.lexeme_char (c : Char) : (Word.char c).lexeme.toList = [c] := by
  simp [Word.char, Word.ofChars, Token.word, Token.ofChars]

@[simp] theorem Word.lexeme_keyword : Word.keyword.lexeme.toList = ['l', 'e', 't'] :=
  String.toList_ofList

@[simp] theorem BinaryOp.lexeme_word (op : BinaryOp) : op.word.lexeme.toList = op.symbol.toList := by
  cases op <;> exact Word.lexeme_char _

@[simp] theorem UnaryOp.lexeme_word (op : UnaryOp) : op.word.lexeme.toList = op.symbol.toList := by
  cases op <;> exact Word.lexeme_char _

theorem toList_toString (n : Int64) : (toString n.toInt).toList = spelling (numberWords n) := by
  unfold numberWords signedWords
  cases n.toInt with
  | ofNat size =>
    have hsize : ¬ (size : Int) < 0 := by omega
    simp [Word.digits, toString, Int.repr, hsize]
  | negSucc size =>
    have hsize : Int.negSucc size < 0 := by omega
    simp [Word.digits, toString, Int.repr, hsize]

theorem toList_listText {α : Type} {text : α → String} {words : α → List Word} {xs : List α}
    (h : ∀ x ∈ xs, (text x).toList = spelling (words x)) :
    (listText (xs.map text)).toList = spelling (listWords (xs.map words)) := by
  rw [listText, String.toList_intercalate]
  induction xs with
  | nil => rfl
  | cons x xs ih =>
    obtain ⟨hx, hxs⟩ := List.forall_mem_cons.mp h
    have ih := ih hxs
    cases xs with
    | nil => simp [listWords, hx]
    | cons y ys =>
      simp only [List.map_cons, List.intercalate_cons_cons, listWords, spelling_append,
        spelling_cons, Word.lexeme_char] at ih ⊢
      rw [ih, hx, List.append_assoc]
      rfl

theorem toList_itemsText {items : List (Item Operand)}
    (h : ∀ x, .operand x ∈ items → x.text.toList = spelling x.words) :
    (itemsText items).toList = spelling (itemsWords items) := by
  induction items with
  | nil => rfl
  | cons item items ih =>
    have hitem : (itemText item).toList = spelling (itemWords item) := by
      cases item with
      | operand x => exact h x List.mem_cons_self
      | binary op => simp [itemText, itemWords]
      | unary op => simp [itemText, itemWords]
      | opening span => simp [itemText, itemWords]
      | closing span => simp [itemText, itemWords]
    have hitems := ih fun x hx => h x (List.mem_cons_of_mem _ hx)
    rw [itemsText, itemsWords, String.toList_append, spelling_append, hitem, hitems]

theorem toList_expressionText {e : Expression}
    (h : ∀ x, .operand x ∈ e.items → x.text.toList = spelling x.words) :
    (expressionText e).toList = spelling (expressionWords e) := by
  cases e
  exact toList_itemsText h

theorem expressionTexts_eq_map (es : List Expression) :
    expressionTexts es = es.map expressionText := by
  induction es with
  | nil => rfl
  | cons e es ih => rw [expressionTexts, ih, List.map_cons]

theorem rowTexts_eq_map (rows : List Row) : rowTexts rows = rows.map rowText := by
  induction rows with
  | nil => rfl
  | cons row rows ih => rw [rowTexts, ih, List.map_cons]

theorem toList_expressionTexts {es : List Expression}
    (h : ∀ e ∈ es, (expressionText e).toList = spelling (expressionWords e)) :
    (listText (expressionTexts es)).toList = spelling (listWords (allWords es)) := by
  rw [expressionTexts_eq_map, allWords_eq_map]
  exact toList_listText h

theorem Operand.toList_text (x : Operand) : x.text.toList = spelling x.words := by
  refine Operand.induct (P := fun x => x.text.toList = spelling x.words) (fun x ih => ?_) x
  have hinner : ∀ e ∈ x.inner, (expressionText e).toList = spelling (expressionWords e) :=
    fun e he => toList_expressionText (ih e he)
  match x with
  | .number n => exact toList_toString n.value
  | .symbol s => simp [text, words]
  | .call ⟨name, args, span, parens⟩ =>
    have hargs : (listText (expressionTexts args)).toList = spelling (listWords (allWords args)) :=
      toList_expressionTexts hinner
    simp [text, words, callText, callWords, hargs]
  | .matrix ⟨rows, span⟩ =>
    have hrows : ∀ row ∈ rows, (rowText row).toList = spelling (rowWords row) := by
      rintro ⟨elements, span⟩ hrow
      have helements := toList_expressionTexts fun e he =>
        hinner e (List.mem_flatMap.mpr ⟨_, hrow, he⟩)
      simp [rowText, rowWords, helements]
    simp [text, words, matrixText, matrixWords, rowTexts_eq_map, rowsWords_eq_map,
      toList_listText hrows]

theorem Statement.toList_text (s : Statement) : s.text.toList = spelling s.words := by
  cases s with
  | declaration d =>
    have hvalue : (expressionText d.value).toList = spelling (expressionWords d.value) :=
      toList_expressionText fun x _ => x.toList_text
    simp [text, Declaration.text, words, hvalue]
  | call c =>
    have hcall : (callText c).toList = spelling (callWords c) := (Operand.call c).toList_text
    simp [text, words, hcall]

theorem toList_join_texts (script : List Statement) :
    (String.join (script.map Statement.text)).toList =
      spelling (script.flatMap Statement.words) := by
  induction script with
  | nil => rfl
  | cons s script ih =>
    rw [List.map_cons, String.join_cons, String.toList_append, ih, s.toList_text,
      List.flatMap_cons, spelling_append]

/-! ## Words that are apart -/

/-- The words are whole, and no two of letters and digits run into each other. -/
structure Spaced (ws : List Word) : Prop where
  valid : ∀ w ∈ ws, w.Valid
  apart : ws.IsChain Word.Apart

def CanFollow (ws : List Word) : Prop := ∀ w ∈ ws.head?, w.isLetters = false

theorem canFollow_cons {w : Word} (h : w.isLetters = false) (ws : List Word) :
    CanFollow (w :: ws) := by
  rintro v ⟨⟩
  exact h

theorem spaced_nil : Spaced [] := ⟨List.forall_mem_nil _, .nil⟩

namespace Spaced

variable {w : Word} {ws rest : List Word}

theorem cons (h : Spaced ws) (hw : w.Valid) (hfollow : CanFollow ws) : Spaced (w :: ws) where
  valid := List.forall_mem_cons.mpr ⟨hw, h.valid⟩
  apart := by
    cases ws with
    | nil => exact .singleton w
    | cons v ws =>
      refine List.isChain_cons_cons.mpr ⟨fun _ => ?_, h.apart⟩
      simpa using hfollow v rfl

theorem cons_mark (h : Spaced ws) (hw : w.Valid) (hmark : w.isLetters = false) :
    Spaced (w :: ws) where
  valid := List.forall_mem_cons.mpr ⟨hw, h.valid⟩
  apart := by
    cases ws with
    | nil => exact .singleton w
    | cons v ws =>
      refine List.isChain_cons_cons.mpr ⟨fun hletters => ?_, h.apart⟩
      exact absurd (hmark.symm.trans hletters) Bool.false_ne_true

theorem char (h : Spaced ws) {c : Char} (hc : (Word.char c).isLetters = false) :
    Spaced (.char c :: ws) := h.cons_mark (Word.valid_char c) hc

theorem name (h : Spaced ws) {s : String} (hs : IsName s) (hfollow : CanFollow ws) :
    Spaced (⟨.name, s⟩ :: ws) := h.cons (isName_iff_valid.mp hs) hfollow

theorem binary (h : Spaced ws) (op : BinaryOp) : Spaced (op.word :: ws) := by
  cases op <;> exact h.char rfl

theorem unary (h : Spaced ws) (op : UnaryOp) : Spaced (op.word :: ws) := by
  cases op <;> exact h.char rfl

theorem number (h : Spaced ws) (n : Int64) (hfollow : CanFollow ws) :
    Spaced (numberWords n ++ ws) := by
  unfold numberWords signedWords
  have hdigits (size : Nat) := h.cons (Word.valid_digits size) hfollow
  split
  · exact (hdigits _).char rfl
  · exact hdigits _

end Spaced

def SpacedBefore {α : Type} (words : α → List Word) (x : α) : Prop :=
  ∀ rest, Spaced rest → CanFollow rest → Spaced (words x ++ rest)

theorem spaced_listWords {α : Type} {words : α → List Word} {xs : List α}
    (hx : ∀ x ∈ xs, SpacedBefore words x) {rest : List Word} (h : Spaced rest)
    (hfollow : CanFollow rest) : Spaced (listWords (xs.map words) ++ rest) := by
  induction xs with
  | nil => exact h
  | cons x xs ih =>
    obtain ⟨hfirst, hxs⟩ := List.forall_mem_cons.mp hx
    have ih := ih hxs
    cases xs with
    | nil => exact hfirst rest h hfollow
    | cons y ys =>
      simp only [List.map_cons, listWords, List.append_assoc, List.cons_append] at ih ⊢
      exact hfirst _ ((ih.char rfl).char rfl) (canFollow_cons rfl _)

theorem spaced_itemsWords {items : List (Item Operand)} {depth : Nat} {slot : Slot}
    (hr : Reads depth slot items) (hx : ∀ x, .operand x ∈ items → SpacedBefore Operand.words x)
    {rest : List Word} (h : Spaced rest) (hfollow : CanFollow rest) :
    Spaced (itemsWords items ++ rest) ∧
      (slot = .operator → CanFollow (itemsWords items ++ rest)) := by
  -- after an operand the slot is that of an operator, which begins with a blank or a parenthesis
  induction items generalizing depth slot with
  | nil => exact ⟨h, fun _ => hfollow⟩
  | cons item items ih =>
    obtain ⟨depth', hrest⟩ := hr.tail
    obtain ⟨hspaced, hnext⟩ := ih hrest fun x hmem => hx x (List.mem_cons_of_mem _ hmem)
    have hadmits := hr.admits
    rw [itemsWords, List.append_assoc]
    cases item with
    | operand x =>
      refine ⟨hx x List.mem_cons_self _ hspaced (hnext rfl), ?_⟩
      rintro rfl
      cases hadmits
    | binary op =>
      exact ⟨((hspaced.char rfl).binary op.value).char rfl, fun _ => canFollow_cons rfl _⟩
    | unary op =>
      refine ⟨hspaced.unary op.value, ?_⟩
      rintro rfl
      cases hadmits
    | opening span =>
      refine ⟨hspaced.char rfl, ?_⟩
      rintro rfl
      cases hadmits
    | closing span => exact ⟨hspaced.char rfl, fun _ => canFollow_cons rfl _⟩

theorem spacedBefore_expression {e : Expression} (he : Legible e)
    (hx : ∀ x, .operand x ∈ e.items → SpacedBefore Operand.words x) :
    SpacedBefore expressionWords e := by
  intro rest h hfollow
  cases e
  exact (spaced_itemsWords he.reads hx h hfollow).1

theorem spaced_enclosed {α : Type} {words : α → List Word} {xs : List α}
    (hx : ∀ x ∈ xs, SpacedBefore words x) {rest : List Word} (h : Spaced rest) {opening closing : Char}
    (ho : (Word.char opening).isLetters = false) (hc : (Word.char closing).isLetters = false) :
    Spaced (.char opening :: listWords (xs.map words) ++ [.char closing] ++ rest) := by
  rw [List.append_assoc]
  exact (spaced_listWords hx (h.char hc) (canFollow_cons hc _)).char ho

theorem Operand.spacedBefore (x : Operand) (hx : x.Sound) : SpacedBefore Operand.words x := by
  revert hx
  refine Operand.induct (P := fun x => x.Sound → SpacedBefore Operand.words x) (fun x ih hx => ?_) x
  have hinner : ∀ e ∈ x.inner, SpacedBefore expressionWords e := by
    intro e he
    have hsound := hx.inner e he
    exact spacedBefore_expression hsound.legible fun y hy => ih e he y hy (hsound.operand hy)
  intro rest h hfollow
  match x with
  | .number n => exact h.number n.value hfollow
  | .symbol s => exact h.name hx.regular hfollow
  | .call ⟨name, args, span, parens⟩ =>
    have hargs := @spaced_enclosed _ _ args hinner _ h '(' ')' rfl rfl
    rw [words, callWords, allWords_eq_map]
    exact hargs.name hx.regular (canFollow_cons rfl _)
  | .matrix ⟨rows, span⟩ =>
    have hrows : ∀ row ∈ rows, SpacedBefore rowWords row := by
      rintro ⟨elements, span⟩ hrow rest h -
      rw [rowWords, allWords_eq_map]
      exact spaced_enclosed (fun e he => hinner e (List.mem_flatMap.mpr ⟨_, hrow, he⟩)) h rfl rfl
    rw [words, matrixWords, rowsWords_eq_map]
    exact spaced_enclosed hrows h rfl rfl

theorem Statement.Legible.spaced {s : Statement} (hs : s.Legible) {rest : List Word}
    (h : Spaced rest) : Spaced (s.words ++ rest) := by
  have hend : Spaced (.char ';' :: rest) := h.char rfl
  cases s with
  | declaration d =>
    have hsound : Sound d.value := hs.inside
    have hvalue : SpacedBefore expressionWords d.value :=
      spacedBefore_expression hsound.legible fun y hy => y.spacedBefore (hsound.operand hy)
    have hassign := (((hvalue _ hend (canFollow_cons rfl _)).char (c := ' ') rfl).char (c := '=') rfl)
    have hname := (hassign.char (c := ' ') rfl).name hs.name (canFollow_cons rfl _)
    rw [words, List.append_assoc]
    exact (hname.char rfl).cons Word.valid_keyword (canFollow_cons rfl _)
  | call c =>
    have hcall : (Operand.call c).Sound := ⟨hs.name, hs.inside⟩
    have hspaced := (Operand.call c).spacedBefore hcall _ hend (canFollow_cons rfl _)
    rw [words, List.append_assoc]
    exact hspaced

theorem spaced_script {script : List Statement} (h : ∀ s ∈ script, s.Legible) :
    Spaced (script.flatMap Statement.words) := by
  induction script with
  | nil => exact spaced_nil
  | cons s script ih =>
    obtain ⟨hs, hrest⟩ := List.forall_mem_cons.mp h
    exact hs.spaced (ih hrest)

end MatrixScript
