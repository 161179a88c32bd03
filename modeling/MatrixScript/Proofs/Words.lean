import MatrixScript.Token
import Mathlib.Data.List.Chain

/-!
# Words

A word is a token without its place.  `marks` is what reading a program can see of a list of words:
those that are no blanks, and which of them are joined to the word before.  Words spelled one after
the other are found again by `tokenize` as long as no name or number runs into the next one.
-/

namespace MatrixScript

structure Word where
  kind : TokenKind
  lexeme : String
deriving DecidableEq, Repr

def Token.word (t : Token) : Word := ⟨t.kind, t.lexeme⟩

namespace Word

def isBlank (w : Word) : Bool := w.kind.isBlank

def ofChars (kind : TokenKind) (chars : List Char) : Word := (Token.ofChars kind 0 chars).word

/-- The lexeme is a whole token of its kind. -/
def Valid (w : Word) : Prop :=
  ∃ c rest, (∀ d ∈ rest, (TokenKind.ofFirst c).goesOnWith d) ∧
    w = ofChars (TokenKind.ofFirst c) (c :: rest)

def isLetters (w : Word) : Bool :=
  w.kind = .name || w.kind = .letKeyword || w.kind = .int

/-- A blank is needed between two words of letters and digits only. -/
def Apart (v w : Word) : Prop := v.isLetters → ¬ w.isLetters

end Word

def spelling (ws : List Word) : List Char := ws.flatMap (·.lexeme.toList)

def marks : Bool → List Word → List (Bool × Word)
  | _, [] => []
  | joined, w :: ws => if w.isBlank then marks false ws else (joined, w) :: marks true ws

/-! ## Kinds of characters -/

namespace TokenKind

variable {c : Char}

theorem ofFirst_of_isLineBreak (h : isLineBreak c) : ofFirst c = .newLine := by
  simp [ofFirst, h]

theorem ofFirst_of_isSpace (h : isSpace c) : ofFirst c = .whitespace := by
  simp only [isSpace, Bool.or_eq_true, beq_iff_eq] at h
  rcases h with rfl | rfl <;> rfl

theorem not_blank_of_isNameRest (h : isNameRest c) :
    isLineBreak c = false ∧ isSpace c = false := by
  have hne : ∀ d : Char, isNameRest d = false → c ≠ d := by
    rintro d hd rfl
    exact Bool.false_ne_true (hd.symm.trans h)
  simp only [isLineBreak, isSpace, Bool.or_eq_false_iff, beq_eq_false_iff_ne]
  exact ⟨⟨hne _ rfl, hne _ rfl⟩, hne _ rfl, hne _ rfl⟩

theorem isNameRest_of_isDigit (h : c.isDigit) : isNameRest c := by
  simp [isNameRest, Char.isAlphanum, h]

theorem isNameStart_eq_false_of_isDigit (h : c.isDigit) : isNameStart c = false := by
  have hne : c ≠ '_' := by rintro rfl; cases h
  simp only [Char.isDigit, Bool.and_eq_true, decide_eq_true_eq, ge_iff_le, UInt32.le_iff_toNat_le]
    at h
  delta isNameStart Char.isAlpha Char.isUpper Char.isLower
  simp only [Bool.or_eq_false_iff, beq_eq_false_iff_ne, decide_eq_false_iff_not,
    Bool.and_eq_false_iff, ge_iff_le, UInt32.le_iff_toNat_le]
  simp only [UInt32.reduceToNat, Char.reduceVal] at h ⊢
  exact ⟨⟨by omega, by omega⟩, hne⟩

theorem ofFirst_of_isDigit (h : c.isDigit) : ofFirst c = .int := by
  obtain ⟨hbreak, hspace⟩ := not_blank_of_isNameRest (isNameRest_of_isDigit h)
  simp [ofFirst, hbreak, hspace, isNameStart_eq_false_of_isDigit h, h]

theorem ofFirst_of_isNameRest (h : isNameRest c) : ofFirst c = .name ∨ ofFirst c = .int := by
  obtain ⟨hbreak, hspace⟩ := not_blank_of_isNameRest h
  by_cases hs : isNameStart c
  · simp [ofFirst, hbreak, hspace, hs]
  · have hd : c.isDigit := by
      simp only [isNameStart, isNameRest, Char.isAlphanum, Bool.or_eq_true] at hs h
      tauto
    exact .inr (ofFirst_of_isDigit hd)

/-- A blank goes on with a blank of its kind, a name or a number with letters or digits. -/
theorem eq_of_goesOnWith {kind : TokenKind} (h : kind.goesOnWith c) :
    (kind.isBlank ∧ ofFirst c = kind) ∨
      ((kind = .name ∨ kind = .int) ∧ (ofFirst c = .name ∨ ofFirst c = .int)) := by
  cases kind with
  | newLine => exact .inl ⟨rfl, ofFirst_of_isLineBreak h⟩
  | whitespace => exact .inl ⟨rfl, ofFirst_of_isSpace h⟩
  | name => exact .inr ⟨.inl rfl, ofFirst_of_isNameRest h⟩
  | int => exact .inr ⟨.inr rfl, .inr (ofFirst_of_isDigit h)⟩
  | _ => cases h

end TokenKind

/-! ## Words of a text -/

namespace Word

theorem kind_ofChars (kind : TokenKind) (chars : List Char) :
    (ofChars kind chars).kind =
      if kind = .name ∧ String.ofList chars = "let" then .letKeyword else kind := rfl

theorem isBlank_ofChars (kind : TokenKind) (chars : List Char) :
    (ofChars kind chars).isBlank = kind.isBlank := by
  rw [isBlank, kind_ofChars]
  split
  · next h => rw [h.1]; rfl
  · rfl

theorem isLetters_ofChars {kind : TokenKind} (h : kind = .name ∨ kind = .int)
    (chars : List Char) : (ofChars kind chars).isLetters := by
  unfold isLetters
  rw [kind_ofChars]
  split
  · rfl
  · rcases h with rfl | rfl <;> rfl

theorem apart_of_isBlank {v : Word} (h : v.isBlank) (w : Word) : v.Apart w := by
  intro hletters
  simp only [isLetters, Bool.or_eq_true, decide_eq_true_eq] at hletters
  unfold isBlank at h
  rcases hletters with (hk | hk) | hk <;> rw [hk] at h <;> cases h

theorem isChain_cons_of_isBlank {v : Word} (h : v.isBlank) {ws : List Word}
    (hs : ws.IsChain Apart) : (v :: ws).IsChain Apart := by
  cases ws with
  | nil => exact .singleton v
  | cons w ws => exact List.isChain_cons_cons.mpr ⟨apart_of_isBlank h w, hs⟩

end Word

def Begun (kind : TokenKind) (read : List Char) : Prop :=
  ∃ c rest, read.reverse = c :: rest ∧ kind = .ofFirst c ∧ ∀ d ∈ rest, kind.goesOnWith d

namespace Begun

variable {kind : TokenKind} {read : List Char}

theorem first (c : Char) : Begun (.ofFirst c) [c] := ⟨c, [], rfl, rfl, List.forall_mem_nil _⟩

theorem goOn (h : Begun kind read) {more : List Char} (hm : ∀ d ∈ more, kind.goesOnWith d) :
    Begun kind (more.reverse ++ read) := by
  obtain ⟨c, rest, hr, hk, hrest⟩ := h
  refine ⟨c, rest ++ more, by simp [hr], hk, ?_⟩
  exact List.forall_mem_append.mpr ⟨hrest, hm⟩

theorem valid (h : Begun kind read) : (Word.ofChars kind read.reverse).Valid := by
  obtain ⟨c, rest, hr, rfl, hrest⟩ := h
  exact ⟨c, rest, hrest, by rw [hr]⟩

end Begun

theorem valid_of_mem_scan {kind : TokenKind} {start : Nat} {read chars : List Char}
    (h : Begun kind read) : ∀ t ∈ Token.scan kind start read chars, t.word.Valid := by
  induction chars generalizing kind start read with
  | nil => exact List.forall_mem_singleton.mpr h.valid
  | cons c rest ih =>
    rw [Token.scan]
    split
    · next hc => exact ih (h.goOn (List.forall_mem_singleton.mpr hc))
    · exact List.forall_mem_cons.mpr ⟨h.valid, ih (Begun.first c)⟩

theorem valid_of_mem_tokenize {text : String} : ∀ t ∈ tokenize text, t.word.Valid := by
  rw [tokenize]
  cases text.toList with
  | nil => exact List.forall_mem_nil _
  | cons c rest => exact valid_of_mem_scan (Begun.first c)

/-! ## Texts made of words -/

theorem scan_append {kind : TokenKind} {start : Nat} {read more chars : List Char}
    (h : ∀ d ∈ more, kind.goesOnWith d) :
    Token.scan kind start read (more ++ chars) =
      Token.scan kind start (more.reverse ++ read) chars := by
  induction more generalizing read with
  | nil => rfl
  | cons d more ih =>
    obtain ⟨hd, hm⟩ := List.forall_mem_cons.mp h
    rw [List.cons_append, Token.scan, if_pos hd, ih hm]
    simp

theorem marks_cons_congr {v : Word} {ws ws' : List Word} (h : ∀ j, marks j ws = marks j ws')
    (j : Bool) : marks j (v :: ws) = marks j (v :: ws') := by
  rw [marks, marks, h, h]

theorem spelling_ofChars (kind : TokenKind) (chars : List Char) (ws : List Word) :
    spelling (Word.ofChars kind chars :: ws) = chars ++ spelling ws := by
  simp [spelling, Word.ofChars, Token.word, Token.ofChars]

theorem marks_scan {kind : TokenKind} {start : Nat} {read : List Char} {ws : List Word}
    (hread : Begun kind read) (hv : ∀ w ∈ ws, w.Valid)
    (hs : (Word.ofChars kind read.reverse :: ws).IsChain Word.Apart) (j : Bool) :
    marks j ((Token.scan kind start read (spelling ws)).map Token.word) =
      marks j (Word.ofChars kind read.reverse :: ws) := by
  induction ws generalizing kind start read j with
  | nil => rfl
  | cons w ws ih =>
    obtain ⟨hw, hws⟩ := List.forall_mem_cons.mp hv
    obtain ⟨d, rest, hrest, rfl⟩ := hw
    obtain ⟨hapart, hchain⟩ := List.isChain_cons_cons.mp hs
    rw [spelling_ofChars, List.cons_append, Token.scan]
    by_cases hd : kind.goesOnWith d
    · -- only blanks run into each other, and marks do not see how many there are
      rw [if_pos hd]
      rcases TokenKind.eq_of_goesOnWith hd with ⟨hblank, hfirst⟩ | ⟨hk, hf⟩
      · rw [hfirst] at hrest hchain ⊢
        have hb (chars : List Char) : (Word.ofChars kind chars).isBlank = true := by
          rw [Word.isBlank_ofChars, hblank]
        have hlong : Begun kind (rest.reverse ++ d :: read) := by
          simpa using hread.goOn (List.forall_mem_cons.mpr ⟨hd, hrest⟩)
        have hlongs : (Word.ofChars kind (rest.reverse ++ d :: read).reverse :: ws).IsChain
            Word.Apart := Word.isChain_cons_of_isBlank (hb _) hchain.tail
        rw [scan_append hrest, ih hlong hws hlongs]
        simp only [marks, hb, if_true]
      · exact absurd (Word.isLetters_ofChars hf _) (hapart (Word.isLetters_ofChars hk _))
    · rw [if_neg hd, List.map_cons, scan_append hrest]
      refine marks_cons_congr (fun j' => ?_) j
      have hword : Begun (.ofFirst d) (rest.reverse ++ [d]) := (Begun.first d).goOn hrest
      have hrev : (rest.reverse ++ [d]).reverse = d :: rest := by simp
      rw [ih hword hws (by rwa [hrev]), hrev]

/-- The tokens of a text made of words that are apart are those words, up to blanks. -/
theorem marks_tokenize {text : String} {ws : List Word} (ht : text.toList = spelling ws)
    (hv : ∀ w ∈ ws, w.Valid) (hs : ws.IsChain Word.Apart) :
    marks true ((tokenize text).map Token.word) = marks true ws := by
  rw [tokenize, ht]
  cases ws with
  | nil => rfl
  | cons w ws =>
    obtain ⟨hw, hws⟩ := List.forall_mem_cons.mp hv
    obtain ⟨d, rest, hrest, rfl⟩ := hw
    have hword : Begun (.ofFirst d) (rest.reverse ++ [d]) := (Begun.first d).goOn hrest
    have hrev : (rest.reverse ++ [d]).reverse = d :: rest := by simp
    rw [spelling_ofChars, List.cons_append, tokenizeChars, scan_append hrest,
      marks_scan hword hws (by rwa [hrev]), hrev]

/-! ## Names -/

/-- A letter or underscore, then letters, digits and underscores; but not the keyword. -/
def IsName (s : String) : Prop :=
  s ≠ "let" ∧
    match s.toList with
    | [] => False
    | c :: rest => TokenKind.isNameStart c ∧ ∀ d ∈ rest, TokenKind.isNameRest d

instance (s : String) : Decidable (IsName s) :=
  @instDecidableAnd _ _ inferInstance <|
    match s.toList with
    | [] => isFalse id
    | _ :: rest => @instDecidableAnd _ _ inferInstance (List.decidableBAll _ rest)

theorem TokenKind.ofFirst_eq_name_iff {c : Char} : ofFirst c = .name ↔ isNameStart c := by
  constructor
  · intro h
    by_contra hs
    unfold ofFirst at h
    split at h
    · cases h
    · split at h
      · cases h
      · split at h
        · cases h
        · split at h <;> cases h
  · intro h
    have hrest : isNameRest c := by
      simp only [isNameStart, isNameRest, Char.isAlphanum, Bool.or_eq_true] at h ⊢
      tauto
    obtain ⟨hbreak, hspace⟩ := not_blank_of_isNameRest hrest
    simp [ofFirst, hbreak, hspace, h]

theorem isName_iff_valid {s : String} : IsName s ↔ (⟨.name, s⟩ : Word).Valid := by
  constructor
  · rintro ⟨hlet, h⟩
    cases hs : s.toList with
    | nil => rw [hs] at h; exact h.elim
    | cons c rest =>
      rw [hs] at h
      have hc := TokenKind.ofFirst_eq_name_iff.mpr h.1
      have hofList : String.ofList (c :: rest) = s := by rw [← hs, String.ofList_toList]
      refine ⟨c, rest, by rw [hc]; exact h.2, ?_⟩
      simp [Word.ofChars, Token.word, Token.ofChars, hc, hofList, hlet]
  · rintro ⟨c, rest, hrest, hw⟩
    obtain ⟨hk, rfl⟩ := Word.mk.inj hw
    have hname : TokenKind.ofFirst c = .name ∧ String.ofList (c :: rest) ≠ "let" := by
      change _ = (if _ then _ else _) at hk
      split at hk
      · cases hk
      · next hn => exact ⟨hk.symm, fun h => hn ⟨hk.symm, h⟩⟩
    rw [hname.1] at hrest
    refine ⟨hname.2, ?_⟩
    change match (String.ofList (c :: rest)).toList with | [] => False | c :: rest => _
    rw [String.toList_ofList]
    exact ⟨TokenKind.ofFirst_eq_name_iff.mp hname.1, hrest⟩

end MatrixScript
