import MatrixScript.Proofs.ShownWords

/-!
# Reading items back

At a cursor that shows the words of a list, or of the items of a legible expression, the parser reads
them one by one and leaves the words after them.
-/

namespace MatrixScript

/-! ## Lists of words -/

theorem solidLength_pos {ws : List Word} {kind : TokenKind} (h : headKind? ws = some kind) :
    0 < solidLength ws := by
  obtain ⟨w, hw, -⟩ := Option.map_eq_some_iff.mp h
  have hsolid : (!w.isBlank) = true := List.find?_some (p := fun w : Word => !w.isBlank) hw
  exact List.countP_pos_iff.mpr ⟨w, List.mem_of_find?_eq_some hw, hsolid⟩

section
variable {β : Type} {words : β → List Word} {ys : List β}

theorem solidLength_le_listWords {y : β} (hy : y ∈ ys) :
    solidLength (words y) ≤ solidLength (listWords (ys.map words)) := by
  induction ys with
  | nil => cases hy
  | cons z ys ih =>
    cases ys with
    | nil =>
      obtain rfl := List.mem_singleton.mp hy
      exact Nat.le_refl _
    | cons z' zs =>
      simp only [List.map_cons, listWords, solidLength_append] at ih ⊢
      rcases List.mem_cons.mp hy with rfl | hy
      · exact Nat.le_add_right _ _
      · have hle := ih hy
        rw [solidLength_cons rfl, solidLength_cons_blank rfl]
        omega

theorem headKind?_listWords {y : β} {kind : TokenKind} (h : headKind? (words y) = some kind) :
    headKind? (listWords ((y :: ys).map words)) = some kind := by
  cases ys with
  | nil => exact h
  | cons z zs => exact headKind?_append h _

theorem length_le_listWords (hy : ∀ y ∈ ys, ∃ kind, headKind? (words y) = some kind) :
    ys.length ≤ solidLength (listWords (ys.map words)) := by
  induction ys with
  | nil => exact Nat.zero_le _
  | cons y ys ih =>
    obtain ⟨⟨kind, hkind⟩, hys⟩ := List.forall_mem_cons.mp hy
    have hfirst := solidLength_pos hkind
    have ih := ih hys
    cases ys with
    | nil => exact hfirst
    | cons z zs =>
      simp only [List.map_cons, listWords, solidLength_append, List.length_cons] at ih ⊢
      rw [solidLength_cons rfl, solidLength_cons_blank rfl]
      omega

end

/-! ## Words of items -/

def EndsOperand (ws : List Word) : Prop :=
  ∀ kind, headKind? ws = some kind → kind.startsOperand = false

theorem EndsOperand.not_touches {ws : List Word} (h : EndsOperand ws) {kind : TokenKind}
    (hk : kind.startsOperand = true) (hb : kind.isBlank = false) : ¬ Touches kind ws := by
  rintro ⟨w, hw, rfl⟩
  cases ws with
  | nil => cases hw
  | cons v ws =>
    cases hw
    have hends := h _ (headKind?_cons hb ws)
    exact absurd (hends.symm.trans hk) Bool.false_ne_true

def Ending.closing : Ending → TokenKind
  | .semicolon => .semicolon
  | .argument => .closeParen
  | .element => .closeSquare

def EndsAt (ends : Ending) (ws : List Word) : Prop :=
  headKind? ws = some ends.closing ∨ (ends ≠ .semicolon ∧ headKind? ws = some .comma)

theorem EndsAt.endsOperand {ends : Ending} {ws : List Word} (h : EndsAt ends ws) :
    EndsOperand ws := by
  intro kind hkind
  rcases h with h | ⟨-, h⟩
  · rw [h] at hkind
    cases hkind
    cases ends <;> rfl
  · rw [h] at hkind
    cases hkind
    rfl

def itemKind : Item Operand → TokenKind
  | .operand (.number n) => if n.value.toInt < 0 then .sub else .int
  | .operand (.symbol _) | .operand (.call _) => .name
  | .operand (.matrix _) => .openSquare
  | .binary op => op.value.kind
  | .unary op => op.value.kind
  | .opening _ => .openParen
  | .closing _ => .closeParen

theorem headKind?_itemWords (item : Item Operand) :
    headKind? (itemWords item) = some (itemKind item) := by
  cases item with
  | operand x =>
    cases x with
    | number n =>
      rw [itemWords, Operand.words, numberWords, signedWords, itemKind]
      by_cases hn : n.value.toInt < 0
      · simp [hn]; rfl
      · simp [hn]; rfl
    | symbol s => rfl
    | call c => cases c; rfl
    | matrix m => cases m; rfl
  | binary op =>
    obtain ⟨value, span⟩ := op
    cases value <;> rfl
  | unary op =>
    obtain ⟨value, span⟩ := op
    cases value <;> rfl
  | opening span => rfl
  | closing span => rfl

theorem endsOperand_itemsWords {depth : Nat} {items : List (Item Operand)} {rest : List Word}
    (hr : Reads depth .operator items) (hrest : EndsOperand rest) :
    EndsOperand (itemsWords items ++ rest) := by
  cases items with
  | nil => exact hrest
  | cons item items =>
    intro kind hkind
    rw [itemsWords, List.append_assoc, headKind?_append (headKind?_itemWords item)] at hkind
    cases hkind
    have hadmits := hr.admits
    cases item with
    | operand x => cases hadmits
    | unary op => cases hadmits
    | opening span => cases hadmits
    | binary op =>
      obtain ⟨value, span⟩ := op
      cases value <;> rfl
    | closing span => rfl

theorem length_le_itemsWords (items : List (Item Operand)) :
    items.length ≤ solidLength (itemsWords items) := by
  induction items with
  | nil => exact Nat.zero_le _
  | cons item items ih =>
    have hitem := solidLength_pos (headKind?_itemWords item)
    rw [itemsWords, solidLength_append, List.length_cons]
    omega

theorem solidLength_le_itemsWords {x : Operand} {items : List (Item Operand)}
    (hx : .operand x ∈ items) : solidLength x.words ≤ solidLength (itemsWords items) := by
  induction items with
  | nil => cases hx
  | cons item items ih =>
    rw [itemsWords, solidLength_append]
    rcases List.mem_cons.mp hx with rfl | hx
    · exact Nat.le_add_right _ _
    · exact (ih hx).trans (Nat.le_add_left _ _)

namespace Parse

open Cursor

variable {c : Cursor} {rest : List Word}

/-! ## Lists -/

def Delimits (closing : TokenKind) (ws : List Word) : Prop :=
  headKind? ws = some closing ∨ headKind? ws = some .comma

section
variable {α β γ : Type} {item : Parse α} {words : β → List Word} {read : α → γ} {given : β → γ}
  {closing : TokenKind} {ys : List β}

/-- At the words of `y` the step reads `y`, as far as `read` and `given` tell. -/
def ReadsAs (item : Parse α) (words : β → List Word) (read : α → γ) (given : β → γ)
    (follows : List Word → Prop) (y : β) : Prop :=
  ∀ c rest, Shows c (words y ++ rest) → follows rest →
    Reaches item c fun x c' => read x = given y ∧ c'.Shows rest

theorem reaches_commaSeparated
    (hitem : ∀ y ∈ ys, ReadsAs item words read given (Delimits closing) y) (hne : ys ≠ [])
    (hclosing : closing ≠ .comma) {fuel : Nat} (hfuel : ys.length ≤ fuel)
    (h : c.Shows (listWords (ys.map words) ++ rest)) (hrest : headKind? rest = some closing) :
    Reaches (commaSeparated item fuel) c fun xs c' =>
      xs.map read = ys.map given ∧ c'.Shows rest := by
  induction ys generalizing c fuel with
  | nil => exact absurd rfl hne
  | cons y ys ih =>
    obtain ⟨hfirst, hitems⟩ := List.forall_mem_cons.mp hitem
    obtain _ | fuel := fuel
    · cases hfuel
    unfold commaSeparated
    cases ys with
    | nil =>
      refine (hfirst c rest h (.inl hrest)).bind ?_
      intro x c₁ hx
      obtain ⟨hx, h₁⟩ := hx
      have hcomma : headKind? rest ≠ some .comma := by
        rw [hrest]
        exact fun heq => hclosing (Option.some.inj heq)
      refine (reaches_accept_none h₁ hcomma).bind ?_
      intro t c₂ ht
      obtain ⟨rfl, rfl⟩ := ht
      exact ⟨by rw [List.map_singleton, hx, List.map_singleton], h₁⟩
    | cons z zs =>
      simp only [List.map_cons, listWords, List.append_assoc, List.cons_append] at h ih
      refine (hfirst c _ h (.inr (headKind?_cons rfl _))).bind ?_
      intro x c₁ hx
      obtain ⟨hx, h₁⟩ := hx
      refine (reaches_accept_some h₁ rfl).bind ?_
      intro t c₂ ht
      obtain ⟨u, rfl, -, h₂⟩ := ht
      rw [Option.isSome_some, if_pos rfl]
      refine (ih hitems (by simp) (Nat.le_of_succ_le_succ hfuel) (h₂.shows.blank rfl)).bind ?_
      intro xs c₃ hxs
      obtain ⟨hxs, h₃⟩ := hxs
      exact ⟨by rw [List.map_cons, hx, hxs]; rfl, h₃⟩

theorem reaches_closed {δ : Type} {w : Word} (hw : w.isBlank = false) (hcomma : w.kind ≠ .comma)
    (hitem : ∀ y ∈ ys, ReadsAs item words read given (Delimits w.kind) y)
    (hhead : ∀ y ∈ ys, ∃ kind, headKind? (words y) = some kind ∧ kind ≠ w.kind)
    (h : c.Shows (listWords (ys.map words) ++ w :: rest)) {empty : Token → Parse δ}
    {full : List α → Token → Parse δ} {unclosed : List α → Parse δ} {Q : δ → Cursor → Prop}
    (hempty : ∀ t, empty t = full [] t)
    (hfull : ∀ xs t c', xs.map read = ys.map given → c'.Shows rest → Reaches (full xs t) c' Q) :
    Reaches (do
      match ← accept w.kind with
      | some t => empty t
      | none =>
        let xs ← commaSeparated item (← bound)
        match ← accept w.kind with
        | some t => full xs t
        | none => unclosed xs) c Q := by
  cases ys with
  | nil =>
    refine (reaches_accept_some h hw).bind ?_
    intro t c₁ ht
    obtain ⟨u, rfl, -, h₁⟩ := ht
    dsimp only
    rw [hempty]
    exact hfull [] u c₁ rfl h₁.shows
  | cons y ys =>
    have hopen : headKind? (listWords ((y :: ys).map words) ++ w :: rest) ≠ some w.kind := by
      obtain ⟨kind, hkind, hne⟩ := hhead y List.mem_cons_self
      rw [headKind?_append (headKind?_listWords hkind)]
      exact fun heq => hne (Option.some.inj heq)
    refine (reaches_accept_none h hopen).bind ?_
    intro t c₁ ht
    obtain ⟨rfl, rfl⟩ := ht
    dsimp only
    rw [ends_bind, ends_bound]
    have hfuel := length_le_listWords fun y hy => (hhead y hy).imp fun _ => And.left
    have hlength := h.solidLength_le
    rw [solidLength_append] at hlength
    refine (reaches_commaSeparated hitem (by simp) hcomma (by omega) h
      (headKind?_cons hw rest)).bind ?_
    intro xs c₂ hxs
    obtain ⟨hxs, h₂⟩ := hxs
    refine (reaches_accept_some h₂ hw).bind ?_
    intro t c₃ ht
    obtain ⟨u, rfl, -, h₃⟩ := ht
    exact hfull xs u c₃ hxs h₃.shows

theorem reaches_bracketed
    (hitem : ∀ y ∈ ys, ReadsAs item words read given (Delimits .closeSquare) y)
    (hhead : ∀ y ∈ ys, ∃ kind, headKind? (words y) = some kind ∧ kind ≠ .closeSquare)
    (h : c.Shows (.char '[' :: listWords (ys.map words) ++ [.char ']'] ++ rest)) :
    Reaches (bracketed item) c fun xs c' =>
      xs.items.map read = ys.map given ∧ c'.Shows rest := by
  rw [List.append_assoc, List.cons_append] at h
  unfold bracketed
  refine (reaches_token h rfl).bind ?_
  intro opening c₁ h₁
  obtain ⟨-, h₁⟩ := h₁
  have hcomma : TokenKind.closeSquare ≠ .comma := by simp
  refine reaches_closed (w := .char ']') rfl hcomma hitem hhead h₁.shows (fun _ => rfl) ?_
  intro xs closing c₂ hxs h₂
  exact ⟨hxs, h₂⟩

end

/-! ## Moves -/

section
variable {ends : Ending} {groups : List Span} {slot : Slot} {ws : List Word}

theorem ofCursor_eq {w : Word} {move : Move} (h : c.Shows (w :: ws)) (hw : w.isBlank = false)
    (hmove : ∀ t : Token, t.kind = w.kind → Move.atToken ends groups slot c t = move) :
    Move.ofCursor ends groups slot c = move := by
  obtain ⟨t, c', -, ht, rfl, -⟩ := (reaches_next h hw).exists_eq
  rw [Move.ofCursor, ht.peek?]
  exact hmove t rfl

theorem ofCursor_signed {minus : Bool} {size : Nat} (hslot : slot ≠ .operator)
    (h : c.Shows (signedWords minus size ++ ws)) :
    Move.ofCursor ends groups slot c = .operand := by
  cases minus with
  | true =>
    have hjoined : c.peekJoined .sub .int = true :=
      (peekJoined_iff h rfl rfl).mpr ⟨rfl, _, rfl, rfl⟩
    refine ofCursor_eq h rfl fun t (ht : t.kind = .sub) => ?_
    simp [Move.atToken, ht, hslot, hjoined]
  | false =>
    refine ofCursor_eq h rfl fun t (ht : t.kind = .int) => ?_
    simp [Move.atToken, ht, hslot]

theorem ofCursor_operand {x : Operand} (hslot : slot ≠ .operator)
    (hflat : ends = .element → ∀ m, x ≠ .matrix m) (h : c.Shows (x.words ++ ws)) :
    Move.ofCursor ends groups slot c = .operand := by
  match x with
  | .number n => exact ofCursor_signed hslot h
  | .symbol s =>
    refine ofCursor_eq h rfl fun t (ht : t.kind = .name) => ?_
    simp [Move.atToken, ht, hslot]
  | .call ⟨name, args, span, parens⟩ =>
    refine ofCursor_eq h rfl fun t (ht : t.kind = .name) => ?_
    simp [Move.atToken, ht, hslot]
  | .matrix m =>
    obtain ⟨rows, span⟩ := m
    have hends : ends ≠ .element := fun hends => hflat hends _ rfl
    refine ofCursor_eq h rfl fun t (ht : t.kind = .openSquare) => ?_
    simp [Move.atToken, ht, hslot, hends]

theorem ofCursor_unary {op : UnaryOp} (hslot : slot ≠ .operator)
    (hsign : op = .neg → ¬ Touches .int ws) (h : c.Shows (op.word :: ws)) :
    Move.ofCursor ends groups slot c = .unary op := by
  cases op with
  | pos =>
    refine ofCursor_eq h rfl fun t (ht : t.kind = .add) => ?_
    simp [Move.atToken, ht, hslot]
  | neg =>
    have hjoined : c.peekJoined .sub .int = false := by
      rw [Bool.eq_false_iff]
      intro hj
      exact hsign rfl ((peekJoined_iff h rfl rfl).mp hj).2
    refine ofCursor_eq h rfl fun t (ht : t.kind = .sub) => ?_
    simp [Move.atToken, ht, hslot, hjoined]

theorem ofCursor_binary {op : BinaryOp} (hslot : op.looksUnary → slot = .operator)
    (h : c.Shows (op.word :: ws)) : Move.ofCursor ends groups slot c = .binary op := by
  cases op with
  | mul =>
    refine ofCursor_eq h rfl fun t (ht : t.kind = .mul) => ?_
    simp [Move.atToken, ht]
  | div =>
    refine ofCursor_eq h rfl fun t (ht : t.kind = .div) => ?_
    simp [Move.atToken, ht]
  | add =>
    refine ofCursor_eq h rfl fun t (ht : t.kind = .add) => ?_
    simp [Move.atToken, ht, hslot rfl]
  | sub =>
    refine ofCursor_eq h rfl fun t (ht : t.kind = .sub) => ?_
    simp [Move.atToken, ht, hslot rfl]

theorem ofCursor_opening (hslot : slot ≠ .operator) (h : c.Shows (.char '(' :: ws)) :
    Move.ofCursor ends groups slot c = .opening := by
  refine ofCursor_eq h rfl fun t (ht : t.kind = .openParen) => ?_
  simp [Move.atToken, ht, hslot]

theorem ofCursor_closing {group : Span} (hslot : slot ≠ .first) (h : c.Shows (.char ')' :: ws)) :
    Move.ofCursor ends (group :: groups) slot c = .closing := by
  refine ofCursor_eq h rfl fun t (ht : t.kind = .closeParen) => ?_
  simp [Move.atToken, ht, hslot]

theorem ofCursor_stop (hends : EndsAt ends ws) (h : c.Shows ws) :
    Move.ofCursor ends [] slot c = .stop := by
  have hpeek := h.peekKind?
  unfold Move.ofCursor
  unfold Cursor.peekKind? at hpeek
  rcases hends with hk | ⟨hne, hk⟩
  · rw [hk] at hpeek
    obtain ⟨t, ht, hkind⟩ := Option.map_eq_some_iff.mp hpeek
    rw [ht]
    cases ends <;> simp [Move.atToken, hkind, Ending.closing, Move.finish]
  · rw [hk] at hpeek
    obtain ⟨t, ht, hkind⟩ := Option.map_eq_some_iff.mp hpeek
    rw [ht]
    cases ends <;> simp_all [Move.atToken]

end

/-! ## Items -/

section
variable {nested : Ending → Parse Expression}

def ReadsBack (nested : Ending → Parse Expression) (x : Operand) : Prop :=
  ReadsAs (operandOf nested) Operand.words (reshapeOperand id) (reshapeOperand fuse) EndsOperand x

theorem reaches_operandOf_signed {minus : Bool} {size : Nat} (hr : InInt64 (signed minus size))
    (h : c.Shows (signedWords minus size ++ rest)) (hrest : EndsOperand rest) :
    Reaches (operandOf nested) c fun x c' =>
      (∃ n, x = Operand.number n ∧ n.value = Int64.ofInt (signed minus size)) ∧ c'.Shows rest := by
  have hkind : c.peekKind? = some .sub ∨ c.peekKind? = some .int := by
    rw [h.peekKind?]
    cases minus with
    | true => exact .inl rfl
    | false => exact .inr rfl
  have hnumber : Reaches (Operand.number <$> numeral) c fun x c' =>
      (∃ n, x = Operand.number n ∧ n.value = Int64.ofInt (signed minus size)) ∧ c'.Shows rest := by
    refine ends_map.mpr ((reaches_numeral hr h (hrest.not_touches rfl rfl)).mono ?_)
    intro n c' hn
    obtain ⟨hn, h'⟩ := hn
    exact ⟨⟨n, rfl, hn⟩, h'⟩
  unfold operandOf
  rw [Reaches, ends_bind, ends_peekKind]
  rcases hkind with hkind | hkind
  · rw [hkind]
    exact hnumber
  · rw [hkind]
    exact hnumber

theorem reaches_operandOf_number (n : Int64) (h : c.Shows (numberWords n ++ rest))
    (hrest : EndsOperand rest) :
    Reaches (operandOf nested) c fun x c' =>
      reshapeOperand id x = .number ⟨n, nowhere⟩ ∧ c'.Shows rest := by
  have hsigned : signed (n.toInt < 0) n.toInt.natAbs = n.toInt := by
    simp only [signed, decide_eq_true_eq]
    split <;> omega
  have hr : InInt64 (signed (n.toInt < 0) n.toInt.natAbs) := by
    rw [hsigned]
    exact inInt64_toInt n
  refine (reaches_operandOf_signed hr h hrest).mono ?_
  intro x c' hx
  obtain ⟨⟨m, rfl, hm⟩, h'⟩ := hx
  rw [hsigned, Int64.ofInt_toInt] at hm
  exact ⟨by rw [reshapeOperand, hm], h'⟩

theorem words_negated {n : Int64} (hn : 0 ≤ n.toInt) :
    UnaryOp.neg.word :: numberWords n = signedWords true n.toInt.natAbs := by
  have hnot : ¬ n.toInt < 0 := by omega
  simp [numberWords, signedWords, hnot, UnaryOp.word]

theorem reaches_operandOf_negated {n : Int64} (hn : 0 ≤ n.toInt)
    (h : c.Shows (signedWords true n.toInt.natAbs ++ rest)) (hrest : EndsOperand rest) :
    Reaches (operandOf nested) c fun x c' =>
      reshapeOperand id x = .number ⟨-n, nowhere⟩ ∧ c'.Shows rest := by
  have hsigned : signed true n.toInt.natAbs = -n.toInt := by
    simp only [signed, if_true]
    omega
  have hr : InInt64 (signed true n.toInt.natAbs) := by
    obtain ⟨-, hle⟩ := inInt64_toInt n
    rw [hsigned]
    unfold InInt64
    omega
  refine (reaches_operandOf_signed hr h hrest).mono ?_
  intro x c' hx
  obtain ⟨⟨m, rfl, hm⟩, h'⟩ := hx
  rw [hsigned, Int64.ofInt_neg, Int64.ofInt_toInt] at hm
  exact ⟨by rw [reshapeOperand, hm], h'⟩

theorem fuse_map_cons {item : Item Operand} {items : List (Item Operand)}
    (h : fuses item items = false) :
    fuse ((item :: items).map (reshapeItem fuse)) =
      reshapeItem fuse item :: fuse (items.map (reshapeItem fuse)) :=
  fuse_cons ((fuses_reshape fuse item items).trans h)

theorem fuse_map_pair {op : Located UnaryOp} (hneg : op.value = .neg) {n : Located Int64}
    (hn : 0 ≤ n.value) (items : List (Item Operand)) :
    fuse ((.unary op :: .operand (.number n) :: items).map (reshapeItem fuse)) =
      .operand (.number ⟨-n.value, nowhere⟩) :: fuse (items.map (reshapeItem fuse)) :=
  @fuse_pair ⟨op.value, nowhere⟩ hneg ⟨n.value, nowhere⟩ hn _

/-- A minus sign is not taken for the sign of a number unless there is a number without one. -/
theorem not_touches_int {items : List (Item Operand)} (h : startsUnsigned items = false)
    (hrest : EndsOperand rest) : ¬ Touches .int (itemsWords items ++ rest) := by
  cases items with
  | nil => exact hrest.not_touches rfl rfl
  | cons item items =>
    have hkind : itemKind item ≠ .int := by
      cases item with
      | operand x =>
        cases x with
        | number n =>
          have hn : n.value.toInt < 0 := by
            have hn : ¬ 0 ≤ n.value := by simpa [startsUnsigned] using h
            rw [Int64.le_iff_toInt_le] at hn
            simpa using hn
          simp [itemKind, hn]
        | symbol s => simp [itemKind]
        | call c => simp [itemKind]
        | matrix m => simp [itemKind]
      | binary op => cases hv : op.value <;> simp [itemKind, hv, BinaryOp.kind]
      | unary op => cases hv : op.value <;> simp [itemKind, hv, UnaryOp.kind]
      | opening span => simp [itemKind]
      | closing span => simp [itemKind]
    rintro ⟨w, hw, hint⟩
    rw [itemsWords, List.append_assoc] at hw
    have hhead := headKind?_append (headKind?_itemWords item) (itemsWords items ++ rest)
    cases hws : itemWords item ++ (itemsWords items ++ rest) with
    | nil => rw [hws] at hw; cases hw
    | cons v ws =>
      rw [hws] at hw hhead
      cases hw
      have hsolid : w.isBlank = false := by rw [Word.isBlank, hint]; rfl
      rw [headKind?_cons hsolid] at hhead
      exact hkind ((Option.some.inj hhead).symm.trans hint)

section
variable {α : Type} {ws : List Word} {item : Item Operand}

theorem reaches_mark {w : Word} {f : Token → Item Operand} (h : c.Shows (w :: ws))
    (hw : w.isBlank = false) (hf : ∀ t, reshapeItem id (f t) = item) :
    Reaches next c fun t c' => reshapeItem id (f t) = item ∧ c'.Shows ws :=
  (reaches_next h hw).mono fun t _ ⟨_, _, h'⟩ => ⟨hf t, h'.shows⟩

theorem reaches_cons {items : List (Item Operand)} {q : Parse α} {f : α → Item Operand}
    {p : α → Parse (List (Item Operand))}
    (hq : Reaches q c fun x c' => reshapeItem id (f x) = item ∧ c'.Shows ws)
    (hp : ∀ x c', c'.Shows ws →
      Reaches (p x) c' fun read c'' => read.map (reshapeItem id) = items ∧ c''.Shows rest) :
    Reaches (do let x ← q; return f x :: (← p x)) c fun read c' =>
      read.map (reshapeItem id) = item :: items ∧ c'.Shows rest := by
  refine hq.bind ?_
  intro x c₁ hx
  obtain ⟨hx, h₁⟩ := hx
  refine (hp x c₁ h₁).bind ?_
  intro read c₂ hread
  obtain ⟨hread, h₂⟩ := hread
  exact ⟨by rw [List.map_cons, hx, hread], h₂⟩

end

structure ItemsBack (nested : Ending → Parse Expression) (ends : Ending)
    (items : List (Item Operand)) : Prop where
  flat : ends = .element → ¬ holdsMatrix items
  operands : ∀ x, .operand x ∈ items → ReadsBack nested x

theorem ItemsBack.tail {ends : Ending} {item : Item Operand} {items : List (Item Operand)}
    (h : ItemsBack nested ends (item :: items)) : ItemsBack nested ends items where
  flat hends := fun ⟨m, hm⟩ => h.flat hends ⟨m, List.mem_cons_of_mem _ hm⟩
  operands x hx := h.operands x (List.mem_cons_of_mem _ hx)

def ReadsItems (nested : Ending → Parse Expression) (ends : Ending) (rest : List Word)
    (fuel : Nat) : Prop :=
  ∀ {items groups slot c}, Reads groups.length slot items → SignsPlaced slot items →
    ItemsBack nested ends items → c.Shows (itemsWords items ++ rest) → items.length < fuel →
      Reaches (itemsOf nested ends fuel groups slot) c fun read c' =>
        read.map (reshapeItem id) = fuse (items.map (reshapeItem fuse)) ∧ c'.Shows rest

section
variable {ends : Ending} {items : List (Item Operand)} {groups : List Span} {slot : Slot}
  {fuel : Nat}

theorem reaches_noItems (h : c.Shows rest) (hrest : EndsAt ends rest) :
    Reaches (itemsOf nested ends (fuel + 1) [] slot) c fun read c' =>
      read.map (reshapeItem id) = [] ∧ c'.Shows rest := by
  unfold itemsOf
  rw [Reaches, ends_bind, ends_get, ofCursor_stop hrest h]
  exact ⟨rfl, h⟩

section
variable (ih : ReadsItems nested ends rest fuel) (hfuel : items.length < fuel)
include ih hfuel

theorem reaches_operand_items {x : Operand} (hslot : slot ≠ .operator)
    (hr : Reads groups.length .operator items) (hs : SignsPlaced .operator items)
    (hx : ItemsBack nested ends (.operand x :: items))
    (h : c.Shows (x.words ++ (itemsWords items ++ rest))) (hrest : EndsAt ends rest) :
    Reaches (itemsOf nested ends (fuel + 1) groups slot) c fun read c' =>
      read.map (reshapeItem id) = fuse ((.operand x :: items).map (reshapeItem fuse)) ∧
        c'.Shows rest := by
  have hmatrix : ends = .element → ∀ m, x ≠ .matrix m := by
    rintro hends m rfl
    exact hx.flat hends ⟨m, List.mem_cons_self⟩
  have hend := endsOperand_itemsWords hr hrest.endsOperand
  unfold itemsOf
  rw [Reaches, ends_bind, ends_get, ofCursor_operand hslot hmatrix h, fuse_map_cons rfl]
  refine reaches_cons ((hx.operands x List.mem_cons_self c _ h hend).mono ?_) fun y c₁ h₁ =>
    ih hr hs hx.tail h₁ hfuel
  intro y c₁ hy
  obtain ⟨hy, h₁⟩ := hy
  exact ⟨congrArg Item.operand hy, h₁⟩

theorem reaches_binary_items {op : Located BinaryOp} (hr : Reads groups.length .operand items)
    (hplaced : op.value.looksUnary = true → slot = .operator) (hs : SignsPlaced .operand items)
    (hx : ItemsBack nested ends items)
    (h : c.Shows (op.value.word :: .char ' ' :: (itemsWords items ++ rest))) :
    Reaches (itemsOf nested ends (fuel + 1) groups slot) c fun read c' =>
      read.map (reshapeItem id) = fuse ((.binary op :: items).map (reshapeItem fuse)) ∧
        c'.Shows rest := by
  have hsolid : op.value.word.isBlank = false := by cases op.value <;> rfl
  unfold itemsOf
  rw [Reaches, ends_bind, ends_get, ofCursor_binary hplaced h, fuse_map_cons rfl]
  exact reaches_cons (reaches_mark h hsolid fun _ => rfl) fun t c₁ h₁ =>
    ih hr hs hx (h₁.blank rfl) hfuel

theorem reaches_opening_items {span : Span} (hslot : slot ≠ .operator)
    (hr : Reads (groups.length + 1) .first items) (hs : SignsPlaced .first items)
    (hx : ItemsBack nested ends items)
    (h : c.Shows (.char '(' :: (itemsWords items ++ rest))) :
    Reaches (itemsOf nested ends (fuel + 1) groups slot) c fun read c' =>
      read.map (reshapeItem id) = fuse ((.opening span :: items).map (reshapeItem fuse)) ∧
        c'.Shows rest := by
  unfold itemsOf
  rw [Reaches, ends_bind, ends_get, ofCursor_opening hslot h, fuse_map_cons rfl]
  exact reaches_cons (reaches_mark h rfl fun _ => rfl) fun t c₁ h₁ => ih hr hs hx h₁ hfuel

theorem reaches_closing_items {group span : Span} (hslot : slot ≠ .first)
    (hr : Reads groups.length .operator items) (hs : SignsPlaced .operator items)
    (hx : ItemsBack nested ends items)
    (h : c.Shows (.char ')' :: (itemsWords items ++ rest))) :
    Reaches (itemsOf nested ends (fuel + 1) (group :: groups) slot) c fun read c' =>
      read.map (reshapeItem id) = fuse ((.closing span :: items).map (reshapeItem fuse)) ∧
        c'.Shows rest := by
  unfold itemsOf
  rw [Reaches, ends_bind, ends_get, ofCursor_closing hslot h, fuse_map_cons rfl]
  exact reaches_cons (reaches_mark h rfl fun _ => rfl) fun t c₁ h₁ => ih hr hs hx h₁ hfuel

theorem reaches_unary_items {op : Located UnaryOp} (hslot : slot ≠ .operator)
    (hr : Reads groups.length .operand items) (hs : SignsPlaced .operand items)
    (hx : ItemsBack nested ends items) (hfuses : fuses (.unary op) items = false)
    (h : c.Shows (op.value.word :: (itemsWords items ++ rest))) (hrest : EndsAt ends rest) :
    Reaches (itemsOf nested ends (fuel + 1) groups slot) c fun read c' =>
      read.map (reshapeItem id) = fuse ((.unary op :: items).map (reshapeItem fuse)) ∧
        c'.Shows rest := by
  have hsolid : op.value.word.isBlank = false := by cases op.value <;> rfl
  have hsign : op.value = .neg → ¬ Touches .int (itemsWords items ++ rest) := by
    intro hneg
    refine not_touches_int ?_ hrest.endsOperand
    simpa [fuses, hneg] using hfuses
  unfold itemsOf
  rw [Reaches, ends_bind, ends_get, ofCursor_unary hslot hsign h, fuse_map_cons hfuses]
  exact reaches_cons (reaches_mark h hsolid fun _ => rfl) fun t c₁ h₁ => ih hr hs hx h₁ hfuel

theorem reaches_negated_items {op : Located UnaryOp} {n : Located Int64} (hneg : op.value = .neg)
    (hn : 0 ≤ n.value) (hslot : slot ≠ .operator) (hr : Reads groups.length .operator items)
    (hs : SignsPlaced .operator items) (hx : ItemsBack nested ends items)
    (h : c.Shows (op.value.word :: (numberWords n.value ++ (itemsWords items ++ rest))))
    (hrest : EndsAt ends rest) :
    Reaches (itemsOf nested ends (fuel + 1) groups slot) c fun read c' =>
      read.map (reshapeItem id) =
          fuse ((.unary op :: .operand (.number n) :: items).map (reshapeItem fuse)) ∧
        c'.Shows rest := by
  have hpos : 0 ≤ n.value.toInt := by simpa [Int64.le_iff_toInt_le] using hn
  have hsigned : c.Shows
      (signedWords true n.value.toInt.natAbs ++ (itemsWords items ++ rest)) := by
    rw [hneg] at h
    rw [← words_negated hpos]
    exact h
  have hend := endsOperand_itemsWords hr hrest.endsOperand
  unfold itemsOf
  rw [Reaches, ends_bind, ends_get, ofCursor_signed hslot hsigned, fuse_map_pair hneg hn]
  refine reaches_cons ((reaches_operandOf_negated hpos hsigned hend).mono ?_) fun y c₁ h₁ =>
    ih hr hs hx h₁ hfuel
  intro y c₁ hy
  obtain ⟨hy, h₁⟩ := hy
  exact ⟨congrArg Item.operand hy, h₁⟩

end

end

theorem reaches_itemsOf {ends : Ending} (hrest : EndsAt ends rest) (fuel : Nat) :
    ReadsItems nested ends rest fuel := by
  induction fuel with
  | zero => exact fun _ _ _ _ hfuel => absurd hfuel (Nat.not_lt_zero _)
  | succ fuel ih =>
    intro items groups slot c hr hs hx h hfuel
    cases items with
    | nil =>
      cases groups with
      | cons group groups => cases hr
      | nil => exact reaches_noItems h hrest
    | cons item items =>
      obtain ⟨hplaced, hs⟩ := hs
      replace hfuel : items.length < fuel := Nat.lt_of_succ_lt_succ hfuel
      rw [itemsWords, List.append_assoc] at h
      generalize hdepth : groups.length = depth at hr
      cases hr with
      | operand x hslot hr =>
        subst hdepth
        exact reaches_operand_items ih hfuel hslot hr hs hx h hrest
      | binary op hr =>
        subst hdepth
        exact reaches_binary_items ih hfuel hr hplaced hs hx.tail (h.blank rfl)
      | opening span hslot hr =>
        subst hdepth
        exact reaches_opening_items ih hfuel hslot hr hs hx.tail h
      | closing span hslot hr =>
        obtain ⟨group, groups, rfl⟩ := List.exists_cons_of_length_eq_add_one hdepth
        obtain rfl := Nat.succ.inj hdepth
        exact reaches_closing_items ih hfuel hslot hr hs hx.tail h
      | unary op hslot hr =>
        cases hfuses : fuses (.unary op) items with
        | false =>
          subst hdepth
          exact reaches_unary_items ih hfuel hslot hr hs hx.tail hfuses h hrest
        | true =>
          obtain ⟨hneg, n, items, rfl, hn⟩ := exists_of_fuses hfuses
          rw [itemsWords, List.append_assoc] at h
          cases hr with
          | operand _ _ hr =>
            subst hdepth
            exact reaches_negated_items ih (Nat.lt_of_succ_lt hfuel) hneg hn hslot hr hs.2
              hx.tail.tail h hrest

end

end Parse

end MatrixScript
