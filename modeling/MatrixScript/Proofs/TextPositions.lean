import MatrixScript.Token

/-!
# Positions in a text

A span is within a text if it runs forward between two characters of it.  The tokens of a text lie
side by side, so what is put together from the ends of tokens is within the text.
-/

namespace MatrixScript

variable {text : String}

def IsBoundary (text : String) (offset : Nat) : Prop :=
  (⟨offset⟩ : String.Pos.Raw).IsValid text

theorem isBoundary_zero : IsBoundary text 0 := String.Pos.Raw.isValid_zero

theorem IsBoundary.le_utf8ByteSize {offset : Nat} (h : IsBoundary text offset) :
    offset ≤ text.utf8ByteSize := String.Pos.Raw.IsValid.le_utf8ByteSize h

theorem isBoundary_of_toList {before after : List Char} (h : text.toList = before ++ after) :
    IsBoundary text (String.ofList before).utf8ByteSize := by
  have htext : text = String.ofList before ++ String.ofList after := by
    rw [← String.ofList_append, ← h, String.ofList_toList]
  rw [htext]
  exact String.Pos.Raw.IsValid.append_right String.Pos.Raw.isValid_rawEndPos _

/-! ## Spans -/

namespace Span

structure Within (text : String) (s : Span) : Prop where
  start : IsBoundary text s.start
  stop : IsBoundary text s.stop
  le : s.start ≤ s.stop

theorem within_point {offset : Nat} (h : IsBoundary text offset) : (point offset).Within text :=
  ⟨h, h, Nat.le_refl _⟩

theorem Within.through {s t : Span} (hs : s.Within text) (ht : t.Within text)
    (h : s.stop ≤ t.start) : (s.through t).Within text :=
  ⟨hs.start, ht.stop, Nat.le_trans hs.le (Nat.le_trans h ht.le)⟩

end Span

/-- The tokens are within the text and lie side by side from an offset on. -/
def Tiles (text : String) : Nat → List Token → Prop
  | _, [] => True
  | start, t :: tokens => t.span.start = start ∧ t.span.Within text ∧ Tiles text t.span.stop tokens

theorem Tiles.isBoundary_getLast {start : Nat} {tokens : List Token} (h : Tiles text start tokens)
    {t : Token} (ht : t ∈ tokens.getLast?) : IsBoundary text t.span.stop := by
  induction tokens generalizing start with
  | nil => cases ht
  | cons u tokens ih =>
    obtain ⟨-, hu, hrest⟩ := h
    cases tokens with
    | nil => cases ht; exact hu.stop
    | cons v tokens => exact ih hrest (by rwa [List.getLast?_cons_cons] at ht)

/-! ## Tokens of a text -/

theorem Token.within_ofChars {before chars after : List Char}
    (h : text.toList = before ++ (chars ++ after)) (kind : TokenKind) :
    (Token.ofChars kind (String.ofList before).utf8ByteSize chars).span.Within text := by
  have hstop := isBoundary_of_toList (h.trans (List.append_assoc ..).symm)
  rw [String.ofList_append, String.utf8ByteSize_append] at hstop
  exact ⟨isBoundary_of_toList h, hstop, Nat.le_add_right _ _⟩

theorem tiles_scan {before read chars : List Char}
    (h : text.toList = before ++ (read.reverse ++ chars)) (kind : TokenKind) :
    Tiles text (String.ofList before).utf8ByteSize
      (Token.scan kind (String.ofList before).utf8ByteSize read chars) := by
  induction chars generalizing before read kind with
  | nil => exact ⟨rfl, Token.within_ofChars h kind, trivial⟩
  | cons c rest ih =>
    rw [Token.scan]
    split
    · exact ih (by simpa using h) kind
    · refine ⟨rfl, Token.within_ofChars h kind, ?_⟩
      have hnext : text.toList = (before ++ read.reverse) ++ ([c].reverse ++ rest) := by
        simpa using h
      have hrest := ih hnext (.ofFirst c)
      rwa [String.ofList_append, String.utf8ByteSize_append] at hrest

theorem tiles_tokenize (text : String) : Tiles text 0 (tokenize text) := by
  rw [tokenize]
  cases h : text.toList with
  | nil => trivial
  | cons c rest =>
    have htext : text.toList = [] ++ ([c].reverse ++ rest) := h
    exact tiles_scan htext _

end MatrixScript
