import Mathlib.Computability.Language
import Mathlib.Data.Char
import Mathlib.Order.Interval.Set.Defs
import MatrixScript.Proofs.PlacedWords

/-!
# Patterns of tokens

Each kind of token has a regular pattern.  A text is cut into tokens without a gap, and each token is
the longest beginning of the text still ahead that is in a pattern of any kind.
-/

namespace MatrixScript

open Computability

/-! ## The patterns -/

namespace Pattern

def one (cs : Set Char) : Language Char := {w | ∃ c ∈ cs, w = [c]}

def run (first rest : Set Char) : Language Char := one first * (one rest)∗

def exactly (text : String) : Language Char := {text.toList}

def digits : Set Char := Set.Icc '0' '9'

def letters : Set Char := Set.Icc 'a' 'z' ∪ Set.Icc 'A' 'Z' ∪ {'_'}

end Pattern

/-- What a token of the kind can be written as, other kinds left aside.  A symbol is any character
that ends no line. -/
def TokenKind.pattern : TokenKind → Language Char
  | .newLine => Pattern.run {'\n', '\r'} {'\n', '\r'}
  | .whitespace => Pattern.run {' ', '\t'} {' ', '\t'}
  | .add => Pattern.exactly "+"
  | .sub => Pattern.exactly "-"
  | .mul => Pattern.exactly "*"
  | .div => Pattern.exactly "/"
  | .assign => Pattern.exactly "="
  | .letKeyword => Pattern.exactly "let"
  | .name => Pattern.run Pattern.letters (Pattern.letters ∪ Pattern.digits)
  | .comma => Pattern.exactly ","
  | .semicolon => Pattern.exactly ";"
  | .openParen => Pattern.exactly "("
  | .closeParen => Pattern.exactly ")"
  | .openSquare => Pattern.exactly "["
  | .closeSquare => Pattern.exactly "]"
  | .int => Pattern.run Pattern.digits Pattern.digits
  | .symbol => Pattern.one {'\n'}ᶜ

structure LongestMatch (kind : TokenKind) (chars ahead : List Char) : Prop where
  matched : chars ∈ kind.pattern
  begins : chars <+: ahead
  longest : ∀ (other : TokenKind) (more : List Char), more ∈ other.pattern → more <+: ahead →
    more.length ≤ chars.length

namespace Pattern

variable {first rest : Set Char} {c : Char} {more : List Char}

theorem mem_one_cons : c :: more ∈ one rest ↔ c ∈ rest ∧ more = [] := by
  constructor
  · rintro ⟨d, hd, h⟩
    obtain ⟨rfl, rfl⟩ := List.cons.inj h
    exact ⟨hd, rfl⟩
  · rintro ⟨hc, rfl⟩
    exact ⟨c, hc, rfl⟩

theorem mem_exactly {text : String} {w : List Char} : w ∈ exactly text ↔ w = text.toList := Iff.rfl

theorem mem_kstar_one : more ∈ (one rest)∗ ↔ ∀ d ∈ more, d ∈ rest := by
  rw [Language.mem_kstar]
  constructor
  · rintro ⟨parts, rfl, hparts⟩ d hd
    obtain ⟨part, hpart, hd⟩ := List.mem_flatten.mp hd
    obtain ⟨c, hc, rfl⟩ := hparts part hpart
    rwa [List.mem_singleton.mp hd]
  · intro h
    refine ⟨more.map ([·]), (List.flatMap_singleton' more).symm, ?_⟩
    exact List.forall_mem_map.mpr fun d hd => ⟨d, h d hd, rfl⟩

theorem mem_run_cons : c :: more ∈ run first rest ↔ c ∈ first ∧ ∀ d ∈ more, d ∈ rest := by
  rw [run, Language.mem_mul]
  constructor
  · rintro ⟨-, ⟨d, hd, rfl⟩, tail, htail, h⟩
    obtain ⟨rfl, rfl⟩ := List.cons.inj h
    exact ⟨hd, mem_kstar_one.mp htail⟩
  · rintro ⟨hc, hmore⟩
    exact ⟨[c], ⟨c, hc, rfl⟩, more, mem_kstar_one.mpr hmore, rfl⟩

end Pattern

/-! ## First characters -/

namespace TokenKind

variable {kind : TokenKind} {c : Char} {rest : List Char}

theorem isDigit_iff : c.isDigit ↔ c ∈ Pattern.digits := by
  simp [Char.isDigit, Pattern.digits, Char.le_def]

theorem isNameStart_iff : isNameStart c ↔ c ∈ Pattern.letters := by
  have halpha : c.isAlpha ↔ c ∈ Set.Icc 'a' 'z' ∪ Set.Icc 'A' 'Z' := by
    delta Char.isAlpha Char.isUpper Char.isLower
    simp [Char.le_def, or_comm]
  rw [Pattern.letters, Set.mem_union, ← halpha, Set.mem_singleton_iff]
  simp [isNameStart]

theorem isNameRest_iff : isNameRest c ↔ c ∈ Pattern.letters ∪ Pattern.digits := by
  rw [Set.mem_union, ← isNameStart_iff, ← isDigit_iff]
  simp [isNameRest, isNameStart, Char.isAlphanum, or_right_comm]

/-- A token goes on as long as what has been read is in the pattern of its kind. -/
theorem goesOnWith_iff_mem_pattern :
    (∀ d ∈ rest, (ofFirst c).goesOnWith d) ↔ c :: rest ∈ (ofFirst c).pattern := by
  by_cases hbreak : isLineBreak c
  · rw [ofFirst_of_isLineBreak hbreak, pattern, Pattern.mem_run_cons]
    simpa [goesOnWith, isLineBreak] using fun _ => hbreak
  by_cases hspace : isSpace c
  · rw [ofFirst_of_isSpace hspace, pattern, Pattern.mem_run_cons]
    simpa [goesOnWith, isSpace] using fun _ => hspace
  by_cases hname : isNameStart c
  · rw [ofFirst_eq_name_iff.mpr hname, pattern, Pattern.mem_run_cons]
    simp only [goesOnWith, isNameRest_iff, isNameStart_iff.mp hname, true_and]
  by_cases hdigit : c.isDigit
  · rw [ofFirst_of_isDigit hdigit, pattern, Pattern.mem_run_cons]
    simp only [goesOnWith, isDigit_iff, isDigit_iff.mp hdigit, true_and]
  have hline : c ≠ '\n' := by
    rintro rfl
    exact hbreak rfl
  unfold ofFirst
  rw [if_neg hbreak, if_neg hspace, if_neg hname, if_neg hdigit]
  split <;> simp [goesOnWith, pattern, Pattern.mem_exactly, Pattern.mem_one_cons, hline,
    List.eq_nil_iff_forall_not_mem]

theorem eq_of_mem_pattern (h : c :: rest ∈ kind.pattern) :
    kind = ofFirst c ∨ (kind = .symbol ∧ rest = []) ∨
      (kind = .letKeyword ∧ ofFirst c = .name ∧ c :: rest = "let".toList) := by
  cases kind with
  | newLine =>
    have hbreak := (Pattern.mem_run_cons.mp h).1
    exact .inl (ofFirst_of_isLineBreak (by simpa [isLineBreak] using hbreak)).symm
  | whitespace =>
    have hspace := (Pattern.mem_run_cons.mp h).1
    exact .inl (ofFirst_of_isSpace (by simpa [isSpace] using hspace)).symm
  | name =>
    have hname := isNameStart_iff.mpr (Pattern.mem_run_cons.mp h).1
    exact .inl (ofFirst_eq_name_iff.mpr hname).symm
  | int =>
    have hdigit := isDigit_iff.mpr (Pattern.mem_run_cons.mp h).1
    exact .inl (ofFirst_of_isDigit hdigit).symm
  | symbol => exact .inr (.inl ⟨rfl, (Pattern.mem_one_cons.mp h).2⟩)
  | letKeyword =>
    have hlet : c :: rest = "let".toList := h
    obtain ⟨rfl, -⟩ := List.cons.inj hlet
    exact .inr (.inr ⟨rfl, rfl, hlet⟩)
  | _ =>
    obtain ⟨rfl, -⟩ := List.cons.inj (Pattern.mem_exactly.mp h)
    exact .inl rfl

theorem goesOnWith_of_mem_pattern (h : c :: rest ∈ kind.pattern) :
    ∀ d ∈ rest, (ofFirst c).goesOnWith d := by
  rcases eq_of_mem_pattern h with rfl | ⟨-, rfl⟩ | ⟨-, hname, hlet⟩
  · exact goesOnWith_iff_mem_pattern.mpr h
  · exact List.forall_mem_nil _
  · have hchars : "let".toList = ['l', 'e', 't'] := rfl
    obtain ⟨-, rfl⟩ := List.cons.inj (hlet.trans hchars)
    rw [hname]
    exact List.forall_mem_cons.mpr ⟨rfl, List.forall_mem_singleton.mpr rfl⟩

end TokenKind

/-! ## Words -/

namespace Word

open TokenKind

variable {w : Word}

/-- The kind of a word, unless it is the keyword, is that of its first character. -/
theorem Valid.exists_first (h : w.Valid) :
    ∃ c rest, w.lexeme.toList = c :: rest ∧ (∀ d ∈ rest, (ofFirst c).goesOnWith d) ∧
      (w.kind = .letKeyword ∧ w.lexeme = "let" ∧ ofFirst c = .name ∨
        w.kind = ofFirst c ∧ w.lexeme ≠ "let") := by
  obtain ⟨c, rest, hrest, rfl⟩ := h
  have hlexeme : (ofChars (ofFirst c) (c :: rest)).lexeme = String.ofList (c :: rest) := rfl
  refine ⟨c, rest, by rw [hlexeme, String.toList_ofList], hrest, ?_⟩
  rw [kind_ofChars, hlexeme]
  by_cases hlet : String.ofList (c :: rest) = "let"
  · have hchars : c :: rest = "let".toList := by rw [← hlet, String.toList_ofList]
    obtain ⟨rfl, -⟩ := List.cons.inj hchars
    exact .inl ⟨if_pos ⟨rfl, hlet⟩, hlet, rfl⟩
  · exact .inr ⟨if_neg fun h => hlet h.2, hlet⟩

theorem Valid.mem_pattern (h : w.Valid) : w.lexeme.toList ∈ w.kind.pattern := by
  obtain ⟨c, rest, hchars, hrest, ⟨hk, hlet, -⟩ | ⟨hk, -⟩⟩ := h.exists_first
  · rw [hk, hlet]
    rfl
  · rw [hk, hchars]
    exact goesOnWith_iff_mem_pattern.mp hrest

theorem Valid.kind_eq_letKeyword_iff (h : w.Valid) : w.kind = .letKeyword ↔ w.lexeme = "let" := by
  obtain ⟨c, rest, hchars, hrest, ⟨hk, hlet, -⟩ | ⟨hk, hlet⟩⟩ := h.exists_first
  · exact iff_of_true hk hlet
  · refine iff_of_false (fun hkeyword => hlet ?_) hlet
    have hmem : w.lexeme.toList ∈ w.kind.pattern := h.mem_pattern
    rw [hkeyword] at hmem
    exact String.toList_inj.mp hmem

/-- Names give way to the keyword, and symbols to everything. -/
theorem Valid.eq_of_mem_pattern (h : w.Valid) {kind : TokenKind}
    (hk : w.lexeme.toList ∈ kind.pattern) :
    kind = w.kind ∨ kind = .symbol ∨ (kind = .name ∧ w.kind = .letKeyword) := by
  obtain ⟨c, rest, hchars, -, ⟨hkey, hlet, hname⟩ | ⟨hkind, hlet⟩⟩ := h.exists_first
  · rw [hchars] at hk
    rcases TokenKind.eq_of_mem_pattern hk with rfl | ⟨rfl, -⟩ | ⟨rfl, -⟩
    · exact .inr (.inr ⟨hname, hkey⟩)
    · exact .inr (.inl rfl)
    · exact .inl hkey.symm
  · rw [hchars] at hk
    rcases TokenKind.eq_of_mem_pattern hk with rfl | ⟨rfl, -⟩ | ⟨-, -, hchars'⟩
    · exact .inl hkind.symm
    · exact .inr (.inl rfl)
    · exact absurd (String.toList_inj.mp (hchars.trans hchars')) hlet

theorem Valid.symbol (h : w.Valid) (hk : w.kind = .symbol) :
    ∃ c, w.lexeme = String.singleton c ∧
      ∀ kind : TokenKind, kind ≠ .symbol → ∀ more, c :: more ∉ kind.pattern := by
  obtain ⟨c, rest, hchars, hrest, ⟨hkey, -⟩ | ⟨hkind, -⟩⟩ := h.exists_first
  · rw [hk] at hkey
    cases hkey
  · rw [hk] at hkind
    have hnil : rest = [] := by
      refine List.eq_nil_iff_forall_not_mem.mpr fun d hd => ?_
      have hd := hrest d hd
      rw [← hkind] at hd
      cases hd
    refine ⟨c, String.toList_inj.mp (by rw [hchars, hnil, String.toList_singleton]), ?_⟩
    intro kind hne more hmore
    rcases TokenKind.eq_of_mem_pattern hmore with rfl | ⟨rfl, -⟩ | ⟨-, hname, -⟩
    · exact hne hkind.symm
    · exact hne rfl
    · rw [← hkind] at hname
      cases hname

/-- What is ahead begins with the word, and the word does not go on with what comes after it. -/
theorem Valid.longestMatch {ws : List Word} (h : w.Valid) (hws : ∀ v ∈ ws, v.Valid)
    (hchain : (w :: ws).IsChain fun v u => ¬ v.GoesOnWith u) :
    LongestMatch w.kind w.lexeme.toList (spelling (w :: ws)) where
  matched := h.mem_pattern
  begins := List.prefix_append _ _
  longest := by
    intro other more hmore hprefix
    by_contra hlong
    have hspelling : spelling (w :: ws) = w.lexeme.toList ++ spelling ws := rfl
    have hbegins : w.lexeme.toList <+: spelling (w :: ws) := List.prefix_append _ _
    obtain ⟨extra, rfl⟩ := List.prefix_of_prefix_length_le hbegins hprefix (by omega)
    rw [hspelling, List.prefix_append_right_inj] at hprefix
    cases extra with
    | nil => simp at hlong
    | cons d extra =>
      cases ws with
      | nil => simp [spelling] at hprefix
      | cons v ws =>
        obtain ⟨c, rest, hchars, -⟩ := h.exists_first
        obtain ⟨d', rest', hchars', -⟩ := (hws v List.mem_cons_self).exists_first
        have hnext : spelling (v :: ws) = d' :: (rest' ++ spelling ws) :=
          congrArg (· ++ spelling ws) hchars'
        rw [hnext, List.cons_prefix_cons] at hprefix
        obtain ⟨rfl, -⟩ := hprefix
        rw [hchars] at hmore
        have hgoes := goesOnWith_of_mem_pattern hmore d (by simp)
        exact (List.isChain_cons_cons.mp hchain).1 ⟨c, by simp [hchars], d, by simp [hchars'], hgoes⟩

theorem Valid.tokenize_lexeme (h : w.Valid) : tokenize w.lexeme = [w.tokenAt 0] := by
  obtain ⟨c, rest, hrest, rfl⟩ := h
  have hscan : Token.scan (ofFirst c) 0 [c] (rest ++ []) =
      Token.scan (ofFirst c) 0 (rest.reverse ++ [c]) [] := scan_append hrest
  rw [List.append_nil] at hscan
  have hchars : (ofChars (ofFirst c) (c :: rest)).lexeme.toList = c :: rest := String.toList_ofList
  rw [tokenize, hchars, tokenizeChars, hscan, tokenAt_ofChars]
  simp [Token.scan]

end Word

/-! ## Texts -/

def joined (tokens : List Token) : String := String.join (tokens.map (·.lexeme))

theorem joined_eq (tokens : List Token) :
    joined tokens = String.ofList (spelling (tokens.map Token.word)) := by
  rw [← String.toList_inj, String.toList_ofList, joined, String.toList_join, List.flatMap_map,
    spelling, List.flatMap_map]
  rfl

theorem utf8ByteSize_joined (tokens : List Token) :
    (joined tokens).utf8ByteSize = wordsSize (tokens.map Token.word) := by
  rw [joined_eq, utf8ByteSize_ofList_spelling]

theorem length_place (start : Nat) (ws : List Word) : (place start ws).length = ws.length := by
  rw [← List.length_map Token.word, map_word_place]

theorem eq_tokenAt_of_place {start : Nat} {ws : List Word} {before after : List Token} {t : Token}
    (h : place start ws = before ++ t :: after) :
    t = t.word.tokenAt (start + wordsSize (before.map Token.word)) := by
  have hws : ws = before.map Token.word ++ t.word :: after.map Token.word := by
    rw [← map_word_place start ws, h, List.map_append, List.map_cons]
  rw [hws, place_append] at h
  have hlength : (place start (before.map Token.word)).length = before.length := by
    rw [length_place, List.length_map]
  exact (List.cons.inj (List.append_inj h hlength).2).1.symm

/-- Every token of a text is the longest match at its place.  Of two kinds whose patterns match that
much the keyword comes before names and everything before symbols. -/
theorem tokenize_longest (text : String) :
    joined (tokenize text) = text ∧
    ∀ before t after, tokenize text = before ++ t :: after →
      t.lexeme ≠ "" ∧
      t.span.start = (joined before).utf8ByteSize ∧
      t.span.stop = t.span.start + t.lexeme.utf8ByteSize ∧
      LongestMatch t.kind t.lexeme.toList (joined (t :: after)).toList ∧
      (∀ kind : TokenKind, t.lexeme.toList ∈ kind.pattern →
        kind = t.kind ∨ kind = .symbol ∨ (kind = .name ∧ t.kind = .letKeyword)) ∧
      (t.kind = .letKeyword ↔ t.lexeme = "let") ∧
      (t.kind = .symbol → ∃ c, t.lexeme = String.singleton c ∧
        ∀ kind : TokenKind, kind ≠ .symbol → ∀ more, c :: more ∉ kind.pattern) ∧
      tokenize t.lexeme = [⟨t.kind, t.lexeme, ⟨0, t.lexeme.utf8ByteSize⟩⟩] := by
  refine ⟨?_, fun before t after htokens => ?_⟩
  · exact (joined_eq _).trans (by rw [← wordsOf, spelling_wordsOf, String.ofList_toList])
  have hwords : wordsOf text = before.map Token.word ++ t.word :: after.map Token.word := by
    rw [wordsOf, htokens, List.map_append, List.map_cons]
  have hvalid := hwords ▸ @valid_of_mem_wordsOf text
  obtain ⟨-, hvalid⟩ := List.forall_mem_append.mp hvalid
  obtain ⟨ht, hafter⟩ := List.forall_mem_cons.mp hvalid
  have hchain := (hwords ▸ isChain_wordsOf text).right_of_append
  have hplace : t = t.word.tokenAt (0 + wordsSize (before.map Token.word)) :=
    eq_tokenAt_of_place ((tokenize_eq_place text).symm.trans htokens)
  have hspan := congrArg Token.span hplace
  rw [← utf8ByteSize_joined, Nat.zero_add] at hspan
  have hahead : (joined (t :: after)).toList = spelling (t.word :: after.map Token.word) := by
    rw [joined_eq, String.toList_ofList, List.map_cons]
  refine ⟨?_, congrArg Span.start hspan, ?_, hahead ▸ ht.longestMatch hafter hchain,
    fun kind => ht.eq_of_mem_pattern, ht.kind_eq_letKeyword_iff, ht.symbol, ?_⟩
  · intro hempty
    have hpos : 0 < t.lexeme.utf8ByteSize := ht.size_pos
    rw [hempty] at hpos
    exact absurd hpos (by decide)
  · rw [hspan]
    rfl
  · refine ht.tokenize_lexeme.trans ?_
    rw [Word.tokenAt, Nat.zero_add]
    rfl

/-- A name that the keyword begins, and a symbol of three bytes. -/
theorem tokenize_longest_of_letter :
    let name : Token := ⟨.name, "letter", ⟨4, 10⟩⟩
    let symbol : Token := ⟨.symbol, "€", ⟨10, 13⟩⟩
    let before : List Token := [⟨.letKeyword, "let", ⟨0, 3⟩⟩, ⟨.whitespace, "\t", ⟨3, 4⟩⟩]
    tokenize "let\tletter€" = before ++ name :: [symbol] ∧
    LongestMatch .name "letter".toList (joined [name, symbol]).toList ∧
    name.span.start = (joined before).utf8ByteSize ∧
    tokenize "letter" = [⟨.name, "letter", ⟨0, 6⟩⟩] ∧
    (∃ c, symbol.lexeme = String.singleton c ∧
      ∀ kind : TokenKind, kind ≠ .symbol → ∀ more, c :: more ∉ kind.pattern) ∧
    ∀ kind : TokenKind, symbol.lexeme.toList ∈ kind.pattern →
      kind = .symbol ∨ kind = .symbol ∨ (kind = .name ∧ symbol.kind = .letKeyword) := by
  intro name symbol before
  have htokens : tokenize "let\tletter€" = before ++ name :: [symbol] := by decide +kernel
  obtain ⟨-, hstart, -, hmatch, -, -, -, halone⟩ :=
    (tokenize_longest "let\tletter€").2 before name [symbol] htokens
  obtain ⟨-, -, -, -, hkinds, -, hsymbol, -⟩ :=
    (tokenize_longest "let\tletter€").2 (before ++ [name]) symbol [] htokens
  exact ⟨htokens, hmatch, hstart, halone, hsymbol rfl, hkinds⟩

end MatrixScript
