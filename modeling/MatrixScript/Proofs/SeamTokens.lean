import MatrixScript.Proofs.MovedTokens

/-!
# Tokens at a seam

Where one text is put after another, their tokens stay as they are but for the two at the seam.  If
the last token of the first text is a blank it may go on into the second one, which then starts with
a blank as well.
-/

namespace MatrixScript

open Token

variable {kind : TokenKind} {start n : Nat} {read chars : List Char}

theorem ofChars_add (kind : TokenKind) (start n : Nat) (chars : List Char) :
    ofChars kind (start + n) chars = (ofChars kind start chars).relocate (· + n) := by
  simp [ofChars, Token.relocate, Span.relocate, Nat.add_right_comm]

section
variable {c : Char}

theorem scan_goOn (h : kind.goesOnWith c) :
    scan kind start read (c :: chars) = scan kind start (c :: read) chars := by
  rw [scan, if_pos h]

theorem scan_stop (h : ¬ kind.goesOnWith c) :
    scan kind start read (c :: chars) = ofChars kind start read.reverse ::
      scan (.ofFirst c) (start + (String.ofList read.reverse).utf8ByteSize) [c] chars := by
  rw [scan, if_neg h]
  rfl

end

theorem scan_add (kind : TokenKind) (start n : Nat) (read chars : List Char) :
    scan kind (start + n) read chars =
      (scan kind start read chars).map (Token.relocate (· + n)) := by
  induction chars generalizing kind start read with
  | nil =>
    rw [scan, scan, ofChars_add]
    rfl
  | cons c rest ih =>
    by_cases hc : kind.goesOnWith c
    · rw [scan_goOn hc, scan_goOn hc, ih]
    · rw [scan_stop hc, scan_stop hc, ofChars_add, Nat.add_right_comm, ih]
      rfl

/-- What stands after some characters goes on with the last token of them. -/
theorem exists_scan_append (h : Begun kind read) (start : Nat) (chars : List Char) :
    ∃ before kind' start' read', Begun kind' read' ∧
      scan kind start read chars = before ++ [ofChars kind' start' read'.reverse] ∧
      start' + (String.ofList read'.reverse).utf8ByteSize =
        start + (String.ofList (read.reverse ++ chars)).utf8ByteSize ∧
      ∀ more, scan kind start read (chars ++ more) = before ++ scan kind' start' read' more := by
  induction chars generalizing kind start read with
  | nil => exact ⟨[], kind, start, read, h, rfl, by simp, fun more => rfl⟩
  | cons c rest ih =>
    by_cases hc : kind.goesOnWith c
    · have hgo : Begun kind (c :: read) := h.goOn (List.forall_mem_singleton.mpr hc)
      obtain ⟨before, kind', start', read', hbegun, hscan, hstop, hmore⟩ := ih hgo start
      refine ⟨before, kind', start', read', hbegun, ?_, ?_, fun more => ?_⟩
      · rw [scan_goOn hc, hscan]
      · rw [hstop, List.reverse_cons, List.append_assoc]
        rfl
      · rw [List.cons_append, scan_goOn hc, hmore]
    · obtain ⟨before, kind', start', read', hbegun, hscan, hstop, hmore⟩ :=
        ih (Begun.first c) (start + (String.ofList read.reverse).utf8ByteSize)
      refine ⟨ofChars kind start read.reverse :: before, kind', start', read', hbegun, ?_, ?_,
        fun more => ?_⟩
      · rw [scan_stop hc, hscan]
        rfl
      · rw [hstop, Nat.add_assoc, ← String.utf8ByteSize_append, ← String.ofList_append]
        rfl
      · rw [List.cons_append, scan_stop hc, hmore]
        rfl

/-- However a token has begun, what follows it is the same. -/
theorem exists_scan_eq {start' : Nat} {read' : List Char}
    (h : start + (String.ofList read.reverse).utf8ByteSize =
      start' + (String.ofList read'.reverse).utf8ByteSize + n) (kind : TokenKind)
    (chars : List Char) :
    ∃ t word rest, scan kind start read chars = t :: rest.map (Token.relocate (· + n)) ∧
      scan kind start' read' chars = ofChars kind start' word :: rest := by
  induction chars generalizing read read' with
  | nil => exact ⟨_, _, [], rfl, rfl⟩
  | cons c rest ih =>
    by_cases hc : kind.goesOnWith c
    · rw [scan_goOn hc, scan_goOn hc]
      apply ih
      simp only [List.reverse_cons, String.ofList_append, String.utf8ByteSize_append]
      omega
    · rw [scan_stop hc, scan_stop hc, h, scan_add]
      exact ⟨_, _, _, rfl, rfl⟩

/-! ## Two texts -/

/-- The last token of a text can go on only if it is a blank. -/
theorem isBlank_of_goesOnWith {before : List Token} {c : Char} (h : Begun kind read)
    (hgo : kind.goesOnWith c)
    (hbreaks : ∀ v, (before.map Token.word ++ [Word.ofChars kind read.reverse]).getLast? = some v →
      ∀ w, v.Breaks w) : kind.isBlank = true := by
  obtain ⟨first, rest, hread, rfl, -⟩ := h
  have hgoes : (Word.ofChars (.ofFirst first) read.reverse).GoesOnWith
      (Word.ofChars (.ofFirst c) [c]) := by
    refine ⟨first, ?_, c, ?_, hgo⟩
    · simp [Word.ofChars, Token.word, ofChars, hread]
    · simp [Word.ofChars, Token.word, ofChars]
  have hword := hbreaks _ List.getLast?_concat _ hgoes
  rwa [Word.isBlank_ofChars] at hword

section
variable {c : Char} {rest : List Char} (hend : start + (String.ofList read.reverse).utf8ByteSize = n)
include hend

/-- A blank that goes on is one token with the blank after the seam. -/
theorem suffix_scan_goOn (hblank : kind.isBlank = true) (h : kind.goesOnWith c) :
    ((scan (.ofFirst c) 0 [c] rest).dropWhile (·.isBlank)).map (Token.relocate (· + n)) <:+
      scan kind start read (c :: rest) := by
  have hfirst : TokenKind.ofFirst c = kind := by
    rcases TokenKind.eq_of_goesOnWith h with ⟨-, hfirst⟩ | ⟨rfl | rfl, -⟩
    · exact hfirst
    · cases hblank
    · cases hblank
  have hstops : start + (String.ofList (c :: read).reverse).utf8ByteSize =
      0 + (String.ofList [c].reverse).utf8ByteSize + n := by
    rw [List.reverse_cons, String.ofList_append, String.utf8ByteSize_append, ← hend]
    simp only [List.reverse_singleton]
    omega
  obtain ⟨u, word, tokens, hlong, hshort⟩ := exists_scan_eq hstops kind rest
  have hword : (ofChars kind 0 word).isBlank = true :=
    (Word.isBlank_ofChars kind word).trans hblank
  rw [scan_goOn h, hlong, hfirst, hshort, List.dropWhile_cons_of_pos hword]
  exact ((List.dropWhile_suffix _).map _).trans (List.suffix_cons _ _)

theorem suffix_scan_stop (h : ¬ kind.goesOnWith c) :
    ((scan (.ofFirst c) 0 [c] rest).dropWhile (·.isBlank)).map (Token.relocate (· + n)) <:+
      scan kind start read (c :: rest) := by
  have hmoved := scan_add (.ofFirst c) 0 n [c] rest
  rw [Nat.zero_add] at hmoved
  rw [scan_stop h, hend, hmoved]
  exact ((List.dropWhile_suffix _).map _).trans (List.suffix_cons _ _)

end

/-- If only a blank at the end of the first text can go on, the tokens of the second one come last,
but for the blanks it starts with. -/
theorem suffix_tokenize_append {s t : String}
    (h : ∀ v, (wordsOf s).getLast? = some v → ∀ w, v.Breaks w) :
    ((tokenize t).dropWhile (·.isBlank)).map (Token.relocate (· + s.utf8ByteSize)) <:+
      tokenize (s ++ t) := by
  unfold wordsOf tokenize at h
  unfold tokenize
  rw [String.toList_append]
  have hsize : s.utf8ByteSize = (String.ofList s.toList).utf8ByteSize := by
    rw [String.ofList_toList]
  cases hs : s.toList with
  | nil =>
    have hid : Token.relocate (· + s.utf8ByteSize) = id := by
      rw [hsize, hs]
      rfl
    rw [hid, List.map_id]
    exact List.dropWhile_suffix _
  | cons first chars =>
    cases ht : t.toList with
    | nil => exact List.nil_suffix
    | cons c rest =>
      obtain ⟨before, kind, start, read, hbegun, hscan, hstop, hmore⟩ :=
        exists_scan_append (Begun.first first) 0 chars
      have hend : start + (String.ofList read.reverse).utf8ByteSize = s.utf8ByteSize := by
        rw [hstop, hsize, hs, Nat.zero_add]
        rfl
      rw [hs, tokenizeChars, hscan, List.map_append] at h
      rw [List.cons_append, tokenizeChars, tokenizeChars, hmore]
      apply List.IsSuffix.trans _ (List.suffix_append before _)
      by_cases hgo : kind.goesOnWith c
      · exact suffix_scan_goOn hend (isBlank_of_goesOnWith hbegun hgo h) hgo
      · exact suffix_scan_stop hend hgo

end MatrixScript
