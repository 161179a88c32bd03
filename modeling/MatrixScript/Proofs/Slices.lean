import MatrixScript.Proofs.ProgramNodes

/-!
# Slices of a text

A span that begins with one token and ends with another cuts a slice out of the text, between two
characters each.  The tokens of the slice are those of the text, moved to the start.
-/

namespace MatrixScript

open Parse

/-! ## The characters of a word -/

namespace TokenKind

variable {c : Char}

theorem eq_of_ofFirst_openParen (h : ofFirst c = .openParen) : c = '(' := by
  unfold ofFirst at h
  split_ifs at h
  split at h <;> first | rfl | cases h

theorem eq_of_ofFirst_closeParen (h : ofFirst c = .closeParen) : c = ')' := by
  unfold ofFirst at h
  split_ifs at h
  split at h <;> first | rfl | cases h

def isBlankChar (c : Char) : Bool := isLineBreak c || isSpace c

theorem isBlankChar_of_ofFirst (h : (ofFirst c).isBlank) : isBlankChar c := by
  unfold ofFirst at h
  split_ifs at h with hbreak hspace
  · simp [isBlankChar, hbreak]
  · simp [isBlankChar, hspace]
  · cases h
  · cases h
  · split at h <;> cases h

theorem isBlankChar_of_goesOnWith {kind : TokenKind} (hk : kind.isBlank)
    (h : kind.goesOnWith c) : isBlankChar c := by
  rcases eq_of_goesOnWith h with ⟨-, hfirst⟩ | ⟨rfl | rfl, -⟩
  · exact isBlankChar_of_ofFirst (hfirst ▸ hk)
  · cases hk
  · cases hk

end TokenKind

namespace Word.Valid

variable {w : Word} {c : Char}

theorem lexeme_eq_singleton (h : w.Valid) (hfirst : ∀ d, TokenKind.ofFirst d = w.kind → d = c)
    (hlet : w.kind ≠ .letKeyword) (hend : ∀ d, w.kind.goesOnWith d = false) :
    w.lexeme = String.ofList [c] := by
  obtain ⟨d, rest, hlexeme, hrest, hkind⟩ := h.exists_chars
  have hkind := hkind.resolve_right hlet
  obtain rfl := hfirst d hkind.symm
  cases rest with
  | nil => exact hlexeme
  | cons e rest =>
    have hgoes := hrest e List.mem_cons_self
    rw [← hkind, hend] at hgoes
    cases hgoes

theorem lexeme_of_openParen (h : w.Valid) (hk : w.kind = .openParen) : w.lexeme = "(" :=
  h.lexeme_eq_singleton (fun _ hd => TokenKind.eq_of_ofFirst_openParen (hd.trans hk)) (by simp [hk])
    fun d => by rw [hk]; rfl

theorem lexeme_of_closeParen (h : w.Valid) (hk : w.kind = .closeParen) : w.lexeme = ")" :=
  h.lexeme_eq_singleton (fun _ hd => TokenKind.eq_of_ofFirst_closeParen (hd.trans hk))
    (by simp [hk]) fun d => by rw [hk]; rfl

theorem isBlankChar (h : w.Valid) (hw : w.isBlank) : ∀ c ∈ w.lexeme.toList,
    TokenKind.isBlankChar c := by
  obtain ⟨c, rest, hlexeme, hrest, hkind⟩ := h.exists_chars
  have hblank : (TokenKind.ofFirst c).isBlank := by
    rcases hkind with hkind | hkind <;> rw [Word.isBlank, hkind] at hw
    · exact hw
    · cases hw
  rw [hlexeme, String.toList_ofList]
  exact List.forall_mem_cons.mpr ⟨TokenKind.isBlankChar_of_ofFirst hblank,
    fun d hd => TokenKind.isBlankChar_of_goesOnWith hblank (hrest d hd)⟩

end Word.Valid

/-! ## Tokens between two tokens -/

section
variable {l us before mid after : List Token} {first last : Token} {s : Span}

theorem exists_between (h : first :: (mid ++ [last]) <:+: solid l) :
    ∃ before inside after, l = before ++ (first :: (inside ++ [last]) ++ after) ∧
      solid inside = mid ∧ solid (first :: (inside ++ [last])) = first :: (mid ++ [last]) := by
  obtain ⟨before, after, h⟩ := h
  have hl : solid l = before ++ first :: (mid ++ last :: after) := by simp [← h]
  obtain ⟨l₁, l₂, rfl, -, h₂⟩ := List.filter_eq_append_iff.mp hl
  obtain ⟨blanks, l₃, rfl, -, hfirst, h₃⟩ := List.filter_eq_cons_iff.mp h₂
  obtain ⟨l₄, l₅, rfl, h₄, h₅⟩ := List.filter_eq_append_iff.mp h₃
  obtain ⟨blanks', l₆, rfl, hblanks, hlast, -⟩ := List.filter_eq_cons_iff.mp h₅
  have hinside : solid (l₄ ++ blanks') = mid := by
    have hnone : solid blanks' = [] := List.filter_eq_nil_iff.mpr hblanks
    rw [solid_append, hnone, List.append_nil]
    exact h₄
  refine ⟨l₁ ++ blanks, l₄ ++ blanks', l₆, by simp, hinside, ?_⟩
  rw [solid_cons (by simpa using hfirst), solid_append, hinside, solid_cons (by simpa using hlast)]
  rfl

theorem exists_single (h : [first] <:+: solid l) :
    ∃ before after, l = before ++ ([first] ++ after) ∧ solid [first] = [first] := by
  obtain ⟨before, after, h⟩ := h
  rw [List.append_assoc] at h
  obtain ⟨l₁, l₂, rfl, -, h₂⟩ := List.filter_eq_append_iff.mp h.symm
  obtain ⟨blanks, l₃, rfl, -, hsolid, -⟩ := List.filter_eq_cons_iff.mp h₂
  exact ⟨l₁ ++ blanks, l₃, by simp, solid_cons (by simpa using hsolid) []⟩

theorem Covers.exists_inside (hs : Covers s us) (h : us <:+: solid l) :
    ∃ before inside after, l = before ++ (inside ++ after) ∧ solid inside = us ∧
      Covers s inside := by
  obtain ⟨first, last, hfirst, hlast, rfl⟩ := hs
  obtain ⟨rest, rfl⟩ := List.head?_eq_some_iff.mp hfirst
  rcases List.eq_nil_or_concat' rest with rfl | ⟨mid, last', rfl⟩
  · obtain rfl : first = last := by simpa using hlast
    obtain ⟨before, after, hl, hsolid⟩ := exists_single h
    exact ⟨before, [first], after, hl, hsolid, first.covers⟩
  · have hlast' : (first :: mid ++ [last']).getLast? = some last' := List.getLast?_concat
    obtain rfl : last' = last := Option.some.inj (hlast'.symm.trans hlast)
    obtain ⟨before, inside, after, hl, -, hsolid⟩ := exists_between h
    exact ⟨before, _, after, hl, hsolid, covers_concat first inside last'⟩

end

/-! ## The text of tokens -/

def writing (ts : List Token) : String := String.ofList (spelling (ts.map Token.word))

theorem writing_append (ts us : List Token) : writing (ts ++ us) = writing ts ++ writing us := by
  rw [writing, List.map_append, writing, writing, ← String.ofList_append]
  exact congrArg String.ofList (List.flatMap_append ..)

theorem writing_tokenize (text : String) : writing (tokenize text) = text := by
  have hspelling : spelling ((tokenize text).map Token.word) = text.toList := spelling_wordsOf text
  rw [writing, hspelling, String.ofList_toList]

theorem utf8ByteSize_writing (ts : List Token) :
    (writing ts).utf8ByteSize = wordsSize (ts.map Token.word) := utf8ByteSize_ofList_spelling _

structure Slice (text : String) (s : Span) (slice : String) : Prop where
  exists_around : ∃ before after, text = before ++ slice ++ after ∧
    before.utf8ByteSize = s.start ∧ (before ++ slice).utf8ByteSize = s.stop

theorem Slice.stop_eq {text slice : String} {s : Span} (h : Slice text s slice) :
    s.stop = s.start + slice.utf8ByteSize := by
  obtain ⟨before, after, -, hstart, hstop⟩ := h
  rw [← hstop, ← hstart, String.utf8ByteSize_append]

section
variable {text : String} {before inside after us : List Token} {s : Span}

theorem place_eq_append {start : Nat} {ws : List Word} (h : place start ws = before ++ after) :
    after = place (start + wordsSize (before.map Token.word)) (after.map Token.word) := by
  have hws : ws = before.map Token.word ++ after.map Token.word := by
    rw [← List.map_append, ← h, map_word_place]
  rw [hws, place_append] at h
  refine (List.append_inj h ?_).2.symm
  have hbefore : before.length = (before.map Token.word).length := by
    rw [List.length_map]
  rw [hbefore]
  generalize before.map Token.word = ws
  have hlength := congrArg List.length (map_word_place start ws)
  rwa [List.length_map] at hlength

theorem covers_place {start : Nat} {ws : List Word} (h : Covers s (place start ws)) :
    s = ⟨start, start + wordsSize ws⟩ := by
  obtain ⟨first, last, hfirst, hlast, rfl⟩ := h
  have hstart : first.span.start = start := by
    cases ws with
    | nil => cases hfirst
    | cons w ws => cases hfirst; rfl
  have hstop : last.span.stop = start + wordsSize ws := by
    rcases List.eq_nil_or_concat' ws with rfl | ⟨vs, w, rfl⟩
    · cases hlast
    · have hplace : place start (vs ++ [w]) = place start vs ++ [w.tokenAt (start + wordsSize vs)] :=
        place_append start vs [w]
      rw [hplace, List.getLast?_concat] at hlast
      cases hlast
      simp [Word.tokenAt, wordsSize, Nat.add_assoc]
  rw [Span.through, hstart, hstop]

theorem Covers.placed (hs : Covers s inside) (h : tokenize text = before ++ (inside ++ after)) :
    inside = place s.start (inside.map Token.word) ∧ s.start = (writing before).utf8ByteSize ∧
      s.stop = s.start + (writing inside).utf8ByteSize := by
  rw [utf8ByteSize_writing, utf8ByteSize_writing]
  rw [tokenize_eq_place] at h
  have hinside := place_eq_append h
  rw [List.map_append, place_append, Nat.zero_add] at hinside
  have hinside : inside = place (wordsSize (before.map Token.word)) (inside.map Token.word) := by
    refine (List.append_inj hinside ?_).1
    have hlength := congrArg List.length
      (map_word_place (wordsSize (before.map Token.word)) (inside.map Token.word))
    simpa using hlength.symm
  rw [hinside] at hs
  rw [covers_place hs]
  exact ⟨hinside, rfl, rfl⟩

theorem Covers.slice (hs : Covers s inside) (h : tokenize text = before ++ (inside ++ after)) :
    Slice text s (writing inside) := by
  obtain ⟨-, hstart, hstop⟩ := hs.placed h
  refine ⟨writing before, writing after, ?_, hstart.symm, ?_⟩
  · rw [String.append_assoc, ← writing_append, ← writing_append, ← h, writing_tokenize]
  · rw [String.utf8ByteSize_append, ← hstart, hstop]

theorem Covers.solid_tokenize (hs : Covers s inside)
    (h : tokenize text = before ++ (inside ++ after)) :
    solid (tokenize (writing inside)) = (solid inside).map (Token.relocate (· - s.start)) ∧
      KeepsGaps (· - s.start) (solid inside) := by
  obtain ⟨hinside, -, -⟩ := hs.placed h
  have hwords : wordsOf text =
      before.map Token.word ++ (inside.map Token.word ++ after.map Token.word) := by
    rw [wordsOf, h, List.map_append, List.map_append]
  have hvalid : ∀ w ∈ inside.map Token.word, w.Valid := by
    intro w hw
    have hmem : w ∈ wordsOf text := by
      rw [hwords]
      exact List.mem_append_right _ (List.mem_append_left _ hw)
    exact valid_of_mem_wordsOf w hmem
  have hchain := isChain_wordsOf text
  rw [hwords] at hchain
  have hchain : (inside.map Token.word).IsChain Word.Breaks :=
    hchain.right_of_append.left_of_append.imp fun v w hvw hgoes => absurd hgoes hvw
  have hsolid : solid inside =
      (solid (place 0 (inside.map Token.word))).map (Token.relocate (· + s.start)) := by
    rw [← solid_relocate, ← place_add, Nat.zero_add, ← hinside]
  constructor
  · rw [writing, MatrixScript.solid_tokenize String.toList_ofList hvalid hchain, hsolid,
      List.map_map]
    refine (List.map_id'' (fun t => ?_) _).symm
    simp [Token.relocate, Span.relocate]
  · rw [hsolid]
    intro t ht u hu htouch
    obtain ⟨t, -, rfl⟩ := List.mem_map.mp ht
    obtain ⟨u, -, rfl⟩ := List.mem_map.mp hu
    simpa [Token.relocate, Span.relocate] using htouch

end

end MatrixScript
