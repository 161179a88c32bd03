import MatrixScript.Proofs.PrintedWords

/-!
# Words ahead of a cursor

`c.Shows ws`: what is ahead of the cursor are the words `ws`, up to blanks.  The steps of the parser
are followed on these words, and they all succeed.
-/

namespace MatrixScript

/-! ## The first words -/

def headKind? (ws : List Word) : Option TokenKind := (ws.find? (!·.isBlank)).map (·.kind)

theorem headKind?_append {ws : List Word} {kind : TokenKind} (h : headKind? ws = some kind)
    (rest : List Word) : headKind? (ws ++ rest) = some kind := by
  obtain ⟨w, hw, rfl⟩ := Option.map_eq_some_iff.mp h
  rw [headKind?, List.find?_append, hw]
  rfl

theorem headKind?_cons {w : Word} (hw : w.isBlank = false) (ws : List Word) :
    headKind? (w :: ws) = some w.kind := by
  rw [headKind?, List.find?_cons_of_pos (by simp [hw])]
  rfl

def solidLength (ws : List Word) : Nat := ws.countP (!·.isBlank)

@[simp] theorem solidLength_append (ws ws' : List Word) :
    solidLength (ws ++ ws') = solidLength ws + solidLength ws' := List.countP_append

theorem solidLength_cons {w : Word} (hw : w.isBlank = false) (ws : List Word) :
    solidLength (w :: ws) = solidLength ws + 1 := List.countP_cons_of_pos (by simp [hw])

theorem solidLength_cons_blank {w : Word} (hw : w.isBlank = true) (ws : List Word) :
    solidLength (w :: ws) = solidLength ws := List.countP_cons_of_neg (by simp [hw])

/-- The words begin with one of this kind, without a blank before it. -/
def Touches (kind : TokenKind) (ws : List Word) : Prop := ∃ w ∈ ws.head?, w.kind = kind

/-! ## Marks -/

theorem length_marks (j : Bool) (ws : List Word) : (marks j ws).length = solidLength ws := by
  induction ws generalizing j with
  | nil => rfl
  | cons w ws ih =>
    rw [marks]
    split
    · next hw => rw [ih, solidLength_cons_blank hw]
    · next hw => rw [List.length_cons, ih, solidLength_cons (by simpa using hw)]

theorem map_head?_marks (j : Bool) (ws : List Word) :
    (marks j ws).head?.map (·.2) = ws.find? (!·.isBlank) := by
  induction ws generalizing j with
  | nil => rfl
  | cons w ws ih =>
    rw [marks]
    split
    · next hw => rw [ih, List.find?_cons_of_neg (by simp [hw])]
    · next hw =>
      rw [List.find?_cons_of_pos (by simpa using hw)]
      rfl

theorem marks_cons {w : Word} (hw : w.isBlank = false) (j : Bool) (ws : List Word) :
    marks j (w :: ws) = (j, w) :: marks true ws := by
  rw [marks, if_neg (by simp [hw])]

theorem marks_blanks {blanks : List Word} (hb : ∀ b ∈ blanks, b.isBlank = true) (j : Bool)
    (ws : List Word) : ∃ j', marks j (blanks ++ ws) = marks j' ws := by
  induction blanks generalizing j with
  | nil => exact ⟨j, rfl⟩
  | cons b blanks ih =>
    obtain ⟨hb, hrest⟩ := List.forall_mem_cons.mp hb
    rw [List.cons_append, marks, if_pos hb]
    exact ih hrest false

theorem head?_marks_false (ws : List Word) : ∀ m ∈ (marks false ws).head?, m.1 = false := by
  induction ws with
  | nil => rintro m ⟨⟩
  | cons w ws ih =>
    rw [marks]
    split
    · exact ih
    · rintro m ⟨⟩
      rfl

theorem touches_iff {kind : TokenKind} (hk : kind.isBlank = false) {ws : List Word} :
    Touches kind ws ↔ ∃ m ∈ (marks true ws).head?, m.1 = true ∧ m.2.kind = kind := by
  unfold Touches
  cases ws with
  | nil => simp [marks]
  | cons w ws =>
    by_cases hw : w.isBlank = true
    · rw [marks, if_pos hw]
      constructor
      · rintro ⟨v, ⟨⟩, rfl⟩
        exact absurd (hw.symm.trans hk) (by simp)
      · rintro ⟨m, hm, htrue, -⟩
        exact absurd ((head?_marks_false ws m hm).symm.trans htrue) (by simp)
    · rw [marks_cons (by simpa using hw)]
      simp

theorem touches_congr {kind : TokenKind} (hk : kind.isBlank = false) {ws ws' : List Word}
    (h : marks true ws = marks true ws') : Touches kind ws ↔ Touches kind ws' := by
  rw [touches_iff hk, touches_iff hk, h]

/-! ## Cursors -/

namespace Cursor

variable {c c' : Cursor} {t : Token} {w : Word} {ws rest : List Word}

def Shows (c : Cursor) (ws : List Word) : Prop :=
  ∃ j j', marks j (c.ahead.map Token.word) = marks j' ws

def Meets (c : Cursor) (ws : List Word) : Prop :=
  marks true (c.ahead.map Token.word) = marks true ws

theorem Meets.shows (h : c.Meets ws) : c.Shows ws := ⟨true, true, h⟩

theorem shows_ofText {text : String} (ht : text.toList = spelling ws) (hs : Spaced ws) :
    (ofText text).Shows ws := ⟨true, true, marks_tokenize ht hs.valid hs.apart⟩

namespace Shows

theorem blank (h : c.Shows (w :: ws)) (hw : w.isBlank = true) : c.Shows ws := by
  obtain ⟨j, j', h⟩ := h
  rw [marks, if_pos hw] at h
  exact ⟨j, false, h⟩

theorem find? (h : c.Shows ws) : c.peek?.map Token.word = ws.find? (!·.isBlank) := by
  obtain ⟨j, j', h⟩ := h
  rw [← map_head?_marks j', ← h, map_head?_marks, List.find?_map]
  rfl

theorem peekKind? (h : c.Shows ws) : c.peekKind? = headKind? ws := by
  rw [headKind?, ← h.find?, Option.map_map]
  rfl

theorem solidLength_le (h : c.Shows ws) : solidLength ws ≤ c.ahead.length := by
  obtain ⟨j, j', h⟩ := h
  rw [← length_marks j', ← h, length_marks, solidLength]
  exact List.countP_le_length.trans_eq (List.length_map _)

theorem takes (h : c.Shows (w :: ws)) (hw : w.isBlank = false) (ht : Takes c t c') :
    t.word = w ∧ c'.Meets ws := by
  obtain ⟨j, j', h⟩ := h
  obtain ⟨blanks, hblanks, hahead⟩ := ht.ahead
  have hb : ∀ b ∈ blanks.map Token.word, b.isBlank = true := List.forall_mem_map.mpr hblanks
  rw [hahead, List.map_append, List.map_cons] at h
  obtain ⟨j₁, h₁⟩ := marks_blanks hb j (t.word :: c'.ahead.map Token.word)
  have hsolid : t.word.isBlank = false := ht.solid
  rw [h₁, marks_cons hsolid, marks_cons hw] at h
  obtain ⟨hhead, hrest⟩ := List.cons.inj h
  exact ⟨congrArg Prod.snd hhead, hrest⟩

end Shows

end Cursor

/-! ## Steps -/

namespace Parse

open Cursor

variable {c : Cursor} {kind : TokenKind} {w : Word} {ws rest : List Word}

theorem reaches_next (h : c.Shows (w :: ws)) (hw : w.isBlank = false) :
    Reaches next c fun t c' => Takes c t c' ∧ t.word = w ∧ c'.Meets ws := by
  have hnone : c.peek? = none → ∀ _ : Fault, False := by
    intro hp _
    have hfind := h.find?
    rw [hp, List.find?_cons_of_pos (by simp [hw])] at hfind
    cases hfind
  exact (ends_next hnone).mono fun t c' ht => ⟨ht, h.takes hw ht⟩

theorem reaches_token (h : c.Shows (w :: ws)) (hw : w.isBlank = false) :
    Reaches (token w.kind) c fun t c' => t.word = w ∧ c'.Meets ws := by
  have hkind : c.peekKind? = some w.kind := h.peekKind?.trans (headKind?_cons hw ws)
  exact (ends_token fun hne => absurd hkind hne).mono fun t c' ht => h.takes hw ht.2

theorem reaches_accept_some (h : c.Shows (w :: ws)) (hw : w.isBlank = false) :
    Reaches (accept w.kind) c fun t c' => ∃ u, t = some u ∧ u.word = w ∧ c'.Meets ws := by
  have hkind : c.peekKind? = some w.kind := h.peekKind?.trans (headKind?_cons hw ws)
  refine ends_accept.mono fun t c' ht => ?_
  rcases ht with ⟨-, -, hno⟩ | ⟨u, hu, -, htakes⟩
  · exact absurd hkind hno
  · exact ⟨u, hu, h.takes hw htakes⟩

theorem reaches_accept_none (h : c.Shows ws) (hk : headKind? ws ≠ some kind) :
    Reaches (accept kind) c fun t c' => t = none ∧ c' = c := by
  refine ends_accept.mono fun t c' ht => ?_
  rcases ht with ⟨ht, hc, -⟩ | ⟨u, -, hno, -⟩
  · exact ⟨ht, hc⟩
  · exact absurd (h.peekKind?.symm.trans hno) hk

theorem peekJoined_iff (h : c.Shows (w :: ws)) (hw : w.isBlank = false) {following : TokenKind}
    (hf : following.isBlank = false) :
    c.peekJoined kind following = true ↔ w.kind = kind ∧ Touches following ws := by
  obtain ⟨t, c', -, ht, rfl, hmeets⟩ := (reaches_next h hw).exists_eq
  obtain ⟨blanks, hblanks, hahead⟩ := ht.ahead
  have hdrop : c.ahead.dropWhile (·.isBlank) = t :: c'.ahead := by
    rw [hahead, List.dropWhile_append_of_pos hblanks, List.dropWhile_cons_of_neg (by simp [ht.solid])]
  rw [← touches_congr hf hmeets, peekJoined, hdrop]
  cases c'.ahead with
  | nil => simp [Touches]
  | cons u ahead => simp [Touches, Token.word]

/-! ## Numbers -/

def signed (minus : Bool) (size : Nat) : Int := if minus then -size else size

theorem decimalValue_toString (n : Nat) : decimalValue (toString n).toList = n := by
  have h : (toString n).toList = Nat.toDigits 10 n := by
    rw [Nat.toString_eq_ofList_toDigits, String.toList_ofList]
  rw [h, decimalValue, ← Nat.ofDigitChars_eq_foldl, Nat.ofDigitChars_ten_toDigits]

theorem reaches_numeral {minus : Bool} {size : Nat} (hr : InInt64 (signed minus size))
    (h : c.Shows (signedWords minus size ++ rest)) (hrest : ¬ Touches .name rest) :
    Reaches numeral c fun n c' => n.value = .ofInt (signed minus size) ∧ c'.Shows rest := by
  have hsign : Reaches (acceptJoined .sub .int) c fun sign c' =>
      sign.isSome = minus ∧ c'.Shows (.digits size :: rest) := by
    refine ends_acceptJoined.mono fun sign c' hs => ?_
    cases minus with
    | true =>
      have hjoined : c.peekJoined .sub .int = true :=
        (peekJoined_iff h rfl rfl).mpr ⟨rfl, _, rfl, rfl⟩
      rcases hs with ⟨-, -, hno⟩ | ⟨u, rfl, -, htakes⟩
      · exact absurd hjoined hno
      · exact ⟨rfl, (h.takes rfl htakes).2.shows⟩
    | false =>
      rcases hs with ⟨rfl, rfl, -⟩ | ⟨u, -, hjoined, -⟩
      · exact ⟨rfl, h⟩
      · cases ((peekJoined_iff h rfl rfl).mp hjoined).1
  refine ends_numeral_of (hsign.mono fun sign c₁ h₁ => ?_)
  obtain ⟨rfl, h₁⟩ := h₁
  refine (reaches_token h₁ rfl).mono fun t c₂ ht => ?_
  obtain ⟨hdigits, h₂⟩ := ht
  have hliteral : (literal sign t).1 = signed sign.isSome size := by
    have hsize : t.magnitude = size := by
      rw [Token.magnitude, show t.lexeme = toString size from congrArg Word.lexeme hdigits,
        decimalValue_toString]
    cases sign with
    | none => exact hsize
    | some minus => exact congrArg Neg.neg hsize
  refine ⟨fun u hcurrent hname => hrest ((touches_congr rfl h₂).mp ⟨u.word, ?_, hname⟩),
    fun hover => hover (hliteral ▸ hr), fun _ => ⟨congrArg Int64.ofInt hliteral, h₂.shows⟩⟩
  rw [List.head?_map, ← current?, hcurrent]
  rfl

end Parse

end MatrixScript
