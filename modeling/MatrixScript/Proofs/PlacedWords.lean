import MatrixScript.Proofs.Relocation
import MatrixScript.Proofs.Words
import Mathlib.Algebra.GroupWithZero.Nat

/-!
# Words in their places

The tokens of a text are its words, laid side by side from the start.  A text that is put together
from words has those words for tokens, up to blanks, if none of them goes on with the next one.
-/

namespace MatrixScript

namespace Word

def size (w : Word) : Nat := w.lexeme.utf8ByteSize

def tokenAt (w : Word) (start : Nat) : Token := ⟨w.kind, w.lexeme, ⟨start, start + w.size⟩⟩

def GoesOnWith (v w : Word) : Prop :=
  ∃ c ∈ v.lexeme.toList.head?, ∃ d ∈ w.lexeme.toList.head?, (TokenKind.ofFirst c).goesOnWith d

/-- Only blanks go on with the next word. -/
def Breaks (v w : Word) : Prop := v.GoesOnWith w → v.isBlank

end Word

def place : Nat → List Word → List Token
  | _, [] => []
  | start, w :: ws => w.tokenAt start :: place (start + w.size) ws

def wordsSize (ws : List Word) : Nat := (ws.map Word.size).sum

def solid (tokens : List Token) : List Token := tokens.filter (!·.isBlank)

/-! ## Placing words -/

section
variable {start : Nat} {ws : List Word}

theorem place_append (start : Nat) (vs ws : List Word) :
    place start (vs ++ ws) = place start vs ++ place (start + wordsSize vs) ws := by
  induction vs generalizing start with
  | nil => rfl
  | cons v vs ih =>
    have hsize : start + wordsSize (v :: vs) = start + v.size + wordsSize vs := by
      simp [wordsSize, Nat.add_assoc]
    rw [List.cons_append, place, ih, hsize]
    rfl

theorem map_word_place (start : Nat) (ws : List Word) : (place start ws).map Token.word = ws := by
  induction ws generalizing start with
  | nil => rfl
  | cons w ws ih => rw [place, List.map_cons, ih]; rfl

theorem exists_of_suffix_place {tokens : List Token} (h : tokens <:+ place start ws) :
    ∃ start' ws', ws' <:+ ws ∧ tokens = place start' ws' := by
  induction ws generalizing start with
  | nil => exact ⟨start, [], List.suffix_rfl, List.suffix_nil.mp h⟩
  | cons w ws ih =>
    rcases List.suffix_cons_iff.mp h with rfl | h
    · exact ⟨start, w :: ws, List.suffix_rfl, rfl⟩
    · obtain ⟨start', ws', hws, rfl⟩ := ih h
      exact ⟨start', ws', hws.trans (List.suffix_cons w ws), rfl⟩

theorem solid_append (ts us : List Token) : solid (ts ++ us) = solid ts ++ solid us :=
  List.filter_append ..

end

/-! ## The tokens of a text -/

theorem tokenAt_ofChars (kind : TokenKind) (start : Nat) (chars : List Char) :
    (Word.ofChars kind chars).tokenAt start = Token.ofChars kind start chars := by
  simp [Word.tokenAt, Word.ofChars, Token.word, Token.ofChars, Word.size]

theorem scan_eq_place (kind : TokenKind) (start : Nat) (read chars : List Char) :
    Token.scan kind start read chars =
      place start ((Token.scan kind start read chars).map Token.word) := by
  induction chars generalizing kind start read with
  | nil => exact congrArg (· :: []) (tokenAt_ofChars kind start read.reverse).symm
  | cons c rest ih =>
    rw [Token.scan]
    split
    · exact ih kind start (c :: read)
    · exact congrArg (Token.ofChars kind start read.reverse :: ·) (ih (.ofFirst c) _ [c])

theorem spelling_scan (kind : TokenKind) (start : Nat) (read chars : List Char) :
    spelling ((Token.scan kind start read chars).map Token.word) = read.reverse ++ chars := by
  induction chars generalizing kind start read with
  | nil => exact (spelling_ofChars kind read.reverse []).trans (by simp [spelling])
  | cons c rest ih =>
    rw [Token.scan]
    split
    · rw [ih]
      simp
    · refine (spelling_ofChars kind read.reverse _).trans ?_
      rw [ih]
      rfl

/-- A token ends where the next character does not belong to it any more. -/
theorem isChain_scan {kind : TokenKind} {start : Nat} {read chars : List Char}
    (h : Begun kind read) :
    ((Token.scan kind start read chars).map Token.word).IsChain (fun v w => ¬ v.GoesOnWith w) ∧
      ∃ w ws, (Token.scan kind start read chars).map Token.word = w :: ws ∧
        w.lexeme.toList.head? = read.reverse.head? := by
  induction chars generalizing kind start read with
  | nil => exact ⟨.singleton _, _, [], rfl, by simp [Token.word, Token.ofChars]⟩
  | cons c rest ih =>
    rw [Token.scan]
    split
    · next hc =>
      obtain ⟨hchain, w, ws, hw, hhead⟩ :=
        @ih kind start (c :: read) (h.goOn (List.forall_mem_singleton.mpr hc))
      obtain ⟨first, more, hread, -⟩ := h
      exact ⟨hchain, w, ws, hw, by rw [hhead]; simp [hread]⟩
    · next hc =>
      obtain ⟨hchain, w, ws, hw, hhead⟩ :=
        @ih _ (Token.ofChars kind start read.reverse).span.stop [c] (Begun.first c)
      refine ⟨?_, _, _, rfl, by simp [Token.word, Token.ofChars]⟩
      rw [List.map_cons, hw]
      refine List.isChain_cons_cons.mpr ⟨?_, hw ▸ hchain⟩
      obtain ⟨first, more, hread, rfl, -⟩ := h
      rintro ⟨c', hc', d, hd, hgoes⟩
      rw [hhead] at hd
      cases hd
      simp only [Token.word, Token.ofChars, String.toList_ofList, hread] at hc'
      cases hc'
      exact hc hgoes

def wordsOf (text : String) : List Word := (tokenize text).map Token.word

theorem tokenize_eq_place (text : String) : tokenize text = place 0 (wordsOf text) := by
  rw [wordsOf, tokenize]
  cases text.toList with
  | nil => rfl
  | cons c rest => exact scan_eq_place _ 0 [c] rest

theorem spelling_wordsOf (text : String) : spelling (wordsOf text) = text.toList := by
  rw [wordsOf, tokenize]
  cases text.toList with
  | nil => rfl
  | cons c rest => exact spelling_scan _ 0 [c] rest

theorem utf8ByteSize_ofList_spelling (ws : List Word) :
    (String.ofList (spelling ws)).utf8ByteSize = wordsSize ws := by
  induction ws with
  | nil => rfl
  | cons w ws ih =>
    have hcons : spelling (w :: ws) = w.lexeme.toList ++ spelling ws := rfl
    rw [hcons, String.ofList_append, String.utf8ByteSize_append, ih, String.ofList_toList]
    simp [wordsSize, Word.size]

theorem wordsSize_wordsOf (text : String) : wordsSize (wordsOf text) = text.utf8ByteSize := by
  rw [← utf8ByteSize_ofList_spelling, spelling_wordsOf, String.ofList_toList]

theorem valid_of_mem_wordsOf {text : String} : ∀ w ∈ wordsOf text, w.Valid :=
  List.forall_mem_map.mpr valid_of_mem_tokenize

theorem isChain_wordsOf (text : String) :
    (wordsOf text).IsChain fun v w => ¬ v.GoesOnWith w := by
  rw [wordsOf, tokenize]
  cases text.toList with
  | nil => exact .nil
  | cons c rest => exact (isChain_scan (Begun.first c)).1

/-! ## Texts put together from words -/

theorem Word.Valid.exists_chars {w : Word} (h : w.Valid) :
    ∃ c rest, w.lexeme = String.ofList (c :: rest) ∧
      (∀ d ∈ rest, (TokenKind.ofFirst c).goesOnWith d) ∧
      (w.kind = .ofFirst c ∨ w.kind = .letKeyword) := by
  obtain ⟨c, rest, hrest, rfl⟩ := h
  refine ⟨c, rest, rfl, hrest, ?_⟩
  rw [Word.kind_ofChars]
  split
  · exact .inr rfl
  · exact .inl rfl

theorem Word.Valid.size_pos {w : Word} (h : w.Valid) : 0 < w.size := by
  obtain ⟨c, rest, -, rfl⟩ := h
  have hsize : (Word.ofChars (.ofFirst c) (c :: rest)).size =
      (String.ofList ([c] ++ rest)).utf8ByteSize := rfl
  rw [hsize, String.ofList_append, String.utf8ByteSize_append]
  have hpos : 0 < (String.ofList [c]).utf8ByteSize := by
    simp [Char.utf8Size_pos]
  exact Nat.lt_of_lt_of_le hpos (Nat.le_add_right _ _)

theorem size_ofChars_append (kind : TokenKind) (chars more : List Char) :
    (Word.ofChars kind (chars ++ more)).size =
      (Word.ofChars kind chars).size + (Word.ofChars kind more).size := by
  change (String.ofList (chars ++ more)).utf8ByteSize = _
  rw [String.ofList_append, String.utf8ByteSize_append]
  rfl

theorem solid_cons_blank {t : Token} (h : t.isBlank = true) (ts : List Token) :
    solid (t :: ts) = solid ts := List.filter_cons_of_neg (by simp [h])

theorem solid_cons {t : Token} (h : t.isBlank = false) (ts : List Token) :
    solid (t :: ts) = t :: solid ts := List.filter_cons_of_pos (by simp [h])

theorem solid_cons_congr (t : Token) {ts us : List Token} (h : solid ts = solid us) :
    solid (t :: ts) = solid (t :: us) := by
  cases ht : t.isBlank with
  | true => rw [solid_cons_blank ht, solid_cons_blank ht, h]
  | false => rw [solid_cons ht, solid_cons ht, h]

theorem solid_scan {kind : TokenKind} {start : Nat} {read : List Char} {ws : List Word}
    (hread : Begun kind read) (hv : ∀ w ∈ ws, w.Valid)
    (hs : (Word.ofChars kind read.reverse :: ws).IsChain Word.Breaks) :
    solid (Token.scan kind start read (spelling ws)) =
      solid (place start (Word.ofChars kind read.reverse :: ws)) := by
  induction ws generalizing kind start read with
  | nil => exact congrArg (solid [·]) (tokenAt_ofChars kind start read.reverse).symm
  | cons w ws ih =>
    obtain ⟨hw, hws⟩ := List.forall_mem_cons.mp hv
    obtain ⟨d, rest, hrest, rfl⟩ := hw
    obtain ⟨hbreaks, hchain⟩ := List.isChain_cons_cons.mp hs
    rw [spelling_ofChars, List.cons_append, Token.scan]
    by_cases hd : kind.goesOnWith d
    · -- two blanks of one kind become one blank
      rw [if_pos hd]
      have hblank : kind.isBlank = true := by
        obtain ⟨c, more, hr, rfl, -⟩ := hread
        rw [← Word.isBlank_ofChars (.ofFirst c) read.reverse]
        refine hbreaks ⟨c, ?_, d, ?_, hd⟩
        · simp [Word.ofChars, Token.word, Token.ofChars, hr]
        · simp [Word.ofChars, Token.word, Token.ofChars]
      have hfirst : TokenKind.ofFirst d = kind := by
        rcases TokenKind.eq_of_goesOnWith hd with ⟨-, hfirst⟩ | ⟨hk, -⟩
        · exact hfirst
        · rcases hk with rfl | rfl <;> cases hblank
      rw [hfirst] at hrest hchain ⊢
      have hb (chars : List Char) (start : Nat) :
          ((Word.ofChars kind chars).tokenAt start).isBlank = true :=
        (Word.isBlank_ofChars kind chars).trans hblank
      have hlong : Begun kind (rest.reverse ++ d :: read) := by
        simpa using hread.goOn (List.forall_mem_cons.mpr ⟨hd, hrest⟩)
      have hrev : (rest.reverse ++ d :: read).reverse = read.reverse ++ d :: rest := by simp
      have hchain' : (Word.ofChars kind (rest.reverse ++ d :: read).reverse :: ws).IsChain
          Word.Breaks := by
        cases ws with
        | nil => exact .singleton _
        | cons v ws =>
          refine List.isChain_cons_cons.mpr ⟨fun _ => ?_, hchain.tail⟩
          exact (Word.isBlank_ofChars kind _).trans hblank
      rw [scan_append hrest, ih hlong hws hchain', hrev]
      simp only [place, solid_cons_blank (hb _ _), size_ofChars_append, Nat.add_assoc]
    · rw [if_neg hd]
      have hword : Begun (.ofFirst d) (rest.reverse ++ [d]) := (Begun.first d).goOn hrest
      have hrev : (rest.reverse ++ [d]).reverse = d :: rest := by simp
      rw [place, tokenAt_ofChars]
      refine solid_cons_congr _ ?_
      rw [scan_append hrest, ih hword hws (by rwa [hrev]), hrev]
      rfl

/-- The tokens of a text made of words that break off are those words, up to blanks. -/
theorem solid_tokenize {text : String} {ws : List Word} (ht : text.toList = spelling ws)
    (hv : ∀ w ∈ ws, w.Valid) (hs : ws.IsChain Word.Breaks) :
    solid (tokenize text) = solid (place 0 ws) := by
  rw [tokenize, ht]
  cases ws with
  | nil => rfl
  | cons w ws =>
    obtain ⟨hw, hws⟩ := List.forall_mem_cons.mp hv
    obtain ⟨d, rest, hrest, rfl⟩ := hw
    have hword : Begun (.ofFirst d) (rest.reverse ++ [d]) := (Begun.first d).goOn hrest
    have hrev : (rest.reverse ++ [d]).reverse = d :: rest := by simp
    rw [spelling_ofChars, List.cons_append, tokenizeChars, scan_append hrest,
      solid_scan hword hws (by rwa [hrev]), hrev]

end MatrixScript
