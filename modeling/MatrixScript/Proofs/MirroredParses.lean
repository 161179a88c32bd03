import MatrixScript.Program.Parser
import MatrixScript.Proofs.MirroredSteps

/-!
# Parsing at another place

What is read from the same tokens at another place is the same at another place, and so is what is
wrong with them.  The steps of the parser are gone through one by one, up to a statement, before
which there may be other blanks.
-/

namespace MatrixScript.Parse

open Cursor

variable {α : Type} {g : Nat → Nat} {p : Parse α} {c c' : Cursor}

/-! ## Operands -/

theorem mirrored_literal (h : c.Mirrors g c') (size : Int) (span : Span) :
    Mirrored g
      (if InInt64 size then return ⟨Int64.ofInt size, span⟩ else fail .integerOverflow [span]) c
      (if InInt64 size then return ⟨Int64.ofInt size, span.relocate g⟩
        else fail .integerOverflow [span.relocate g]) c'
      fun n d n' d' => n' = Located.relocate g n ∧ d.Mirrors g d' := by
  by_cases hsize : InInt64 size
  · rw [if_pos hsize, if_pos hsize]
    exact ⟨rfl, h⟩
  · rw [if_neg hsize, if_neg hsize]
    exact mirrored_fail _ rfl

theorem transports_numeral : Transports g (Located.relocate g) numeral numeral := by
  intro c c' h
  unfold numeral
  apply mirrored_attempt
  apply (transports_acceptJoined g .sub .int c c' h).bind
  intro sign d sign' d' hsign
  obtain ⟨rfl, hd⟩ := hsign
  apply (mirrored_token hd.resembles .int).bind
  intro digits e digits' e' hdigits
  obtain ⟨rfl, he⟩ := hdigits
  apply mirrored_get
  extract_lets size literal size' literal'
  have hliteral : Mirrored g (literal ()) e (literal' ()) e'
      fun n k n' k' => n' = n.relocate g ∧ k.Mirrors g k' := by
    cases sign with
    | none => exact mirrored_literal he size digits.span
    | some minus => exact mirrored_literal he (-size) (minus.span.through digits.span)
  rw [he.current?]
  cases e.current? with
  | none => exact hliteral
  | some t =>
    dsimp only [Option.map_some]
    by_cases hk : t.kind = .name
    · rw [if_pos hk, if_pos (show (t.relocate g).kind = .name from hk)]
      rfl
    · rw [if_neg hk, if_neg (show (t.relocate g).kind ≠ .name from hk)]
      exact hliteral

theorem mirrored_name (h : c.Resembles g c') :
    Mirrored g name c name c' fun s d s' d' => s' = s.relocate g ∧ d.Mirrors g d' := by
  unfold name
  apply (mirrored_token h .name).bind
  intro t d t' d' ht
  obtain ⟨rfl, hd⟩ := ht
  exact ⟨rfl, hd⟩

theorem transports_bracketed {f : α → α} (hp : Transports g f p p) :
    Transports g (fun m => ⟨m.items.map f, m.span.relocate g⟩) (bracketed p) (bracketed p) := by
  intro c c' h
  unfold bracketed
  apply (mirrored_token h.resembles .openSquare).bind
  intro opening d opening' d' hopening
  obtain ⟨rfl, hd⟩ := hopening
  apply (transports_accept g .closeSquare d d' hd).bind
  intro closing e closing' e' hclosing
  obtain ⟨rfl, he⟩ := hclosing
  cases closing with
  | some closing => exact ⟨rfl, he⟩
  | none =>
    apply mirrored_bound he
    intro fuel
    apply (transports_commaSeparated hp fuel e e' he).bind
    intro items k items' k' hitems
    obtain ⟨rfl, hk⟩ := hitems
    apply (transports_accept g .closeSquare k k' hk).bind
    intro closing l closing' l' hclosing
    obtain ⟨rfl, hl⟩ := hclosing
    cases closing with
    | some closing => exact ⟨rfl, hl⟩
    | none =>
      apply mirrored_get
      apply mirrored_fail
      rw [hl.resembles.span]
      rfl

section
variable {nested : Ending → Parse Expression}

def MovesAlong (g : Nat → Nat) (nested : Ending → Parse Expression) : Prop :=
  ∀ ends, Transports g (relocate g) (nested ends) (nested ends)

theorem transports_callOf (hn : MovesAlong g nested) (callee : Located String) :
    Transports g (recastCall g id) (callOf nested callee) (callOf nested (callee.relocate g)) := by
  intro c c' h
  unfold callOf
  apply (mirrored_token h.resembles .openParen).bind
  intro opening d opening' d' hopening
  obtain ⟨rfl, hd⟩ := hopening
  apply (transports_accept g .closeParen d d' hd).bind
  intro closing e closing' e' hclosing
  obtain ⟨rfl, he⟩ := hclosing
  cases closing with
  | some closing => exact ⟨rfl, he⟩
  | none =>
    apply mirrored_bound he
    intro fuel
    apply (transports_commaSeparated (hn .argument) fuel e e' he).bind
    intro args k args' k' hargs
    obtain ⟨rfl, hk⟩ := hargs
    apply (transports_accept g .closeParen k k' hk).bind
    intro closing l closing' l' hclosing
    obtain ⟨rfl, hl⟩ := hclosing
    cases closing with
    | some closing =>
      refine ⟨?_, hl⟩
      rw [recastCall_eq]
      rfl
    | none => exact mirrored_fail _ rfl

theorem transports_rowOf (hn : MovesAlong g nested) :
    Transports g (recastRow g id) (rowOf nested) (rowOf nested) := by
  intro c c' h
  unfold rowOf
  apply mirrored_attempt
  apply mirrored_peekKind h.resembles
  split
  · apply (transports_bracketed (hn .element) c c' h).mono
    intro row d row' d' hrow
    obtain ⟨rfl, hd⟩ := hrow
    refine ⟨?_, hd⟩
    obtain ⟨elements, span⟩ := row
    rw [recastRow, recastAll_eq_map]
  · exact mirrored_failHere h.resembles _

theorem transports_matrixOf (hn : MovesAlong g nested) :
    Transports g (recastMatrix g id) (matrixOf nested) (matrixOf nested) := by
  intro c c' h
  unfold matrixOf
  apply mirrored_attempt
  apply (transports_bracketed (transports_rowOf hn) c c' h).mono
  intro m d m' d' hm
  obtain ⟨rfl, hd⟩ := hm
  refine ⟨?_, hd⟩
  obtain ⟨rows, span⟩ := m
  rw [recastMatrix, recastRows_eq_map]

theorem transports_operandOf (hn : MovesAlong g nested) :
    Transports g (recastOperand g id) (operandOf nested) (operandOf nested) := by
  intro c c' h
  have hnumber : Mirrored g (.number <$> numeral) c (.number <$> numeral) c'
      fun x d x' d' => x' = recastOperand g id x ∧ d.Mirrors g d' := by
    apply mirrored_map
    apply (transports_numeral c c' h).mono
    intro n d n' d' hn
    exact ⟨congrArg Operand.number hn.1, hn.2⟩
  unfold operandOf
  apply mirrored_peekKind h.resembles
  split
  · exact hnumber
  · exact hnumber
  · apply (mirrored_name h.resembles).bind
    intro symbol d symbol' d' hsymbol
    obtain ⟨rfl, hd⟩ := hsymbol
    apply mirrored_peekKind hd.resembles
    split
    · apply mirrored_map
      apply (transports_callOf hn symbol d d' hd).mono
      intro x e x' e' hx
      exact ⟨congrArg Operand.call hx.1, hx.2⟩
    · exact ⟨rfl, hd⟩
  · apply mirrored_map
    apply (transports_matrixOf hn c c' h).mono
    intro m d m' d' hm
    exact ⟨congrArg Operand.matrix hm.1, hm.2⟩

end

/-! ## Expressions -/

namespace Move

def relocate (g : Nat → Nat) : Move → Move
  | .refuse cause spans => .refuse cause (spans.map (Span.relocate g))
  | .stop => .stop
  | .operand => .operand
  | .opening => .opening
  | .closing => .closing
  | .unary op => .unary op
  | .binary op => .binary op

theorem finish_relocate (groups : List Span) :
    finish (groups.map (Span.relocate g)) = (finish groups).relocate g := by
  cases groups <;> rfl

theorem adjacent_relocate (h : c.Mirrors g c') (ends : Ending) (t : Token) :
    adjacent ends c' (t.relocate g) = (adjacent ends c t).relocate g := by
  obtain ⟨u, hu, hu'⟩ := h.previous
  cases ends with
  | semicolon =>
    rw [adjacent, adjacent, hu, hu']
    rfl
  | argument => rfl
  | element => rfl

theorem atToken_relocate (h : c.Mirrors g c') (ends : Ending) (groups : List Span) (slot : Slot)
    (t : Token) : atToken ends (groups.map (Span.relocate g)) slot c' (t.relocate g) =
      (atToken ends groups slot c t).relocate g := by
  have hadjacent := adjacent_relocate h ends t
  have hjoined := h.resembles.peekJoined .sub .int
  have hkind : (t.relocate g).kind = t.kind := rfl
  unfold atToken
  rw [hkind, hadjacent, finish_relocate, hjoined]
  cases t.kind with
  | closeParen =>
    cases groups with
    | nil => cases ends <;> rfl
    | cons group groups => cases slot <;> rfl
  | comma =>
    cases groups with
    | nil => cases ends <;> rfl
    | cons group groups => rfl
  | semicolon => rfl
  | closeSquare =>
    dsimp only
    split <;> rfl
  | openParen | int | name =>
    dsimp only
    split <;> rfl
  | openSquare =>
    dsimp only
    split
    · rfl
    · split <;> rfl
  | add =>
    dsimp only
    split <;> rfl
  | sub =>
    dsimp only
    split
    · rfl
    · split <;> rfl
  | mul | div => rfl
  | newLine | whitespace | assign | letKeyword | symbol => rfl

theorem ofCursor_relocate (h : c.Mirrors g c') (ends : Ending) (groups : List Span)
    (slot : Slot) : ofCursor ends (groups.map (Span.relocate g)) slot c' =
      (ofCursor ends groups slot c).relocate g := by
  unfold ofCursor
  rw [h.resembles.peek?]
  cases c.peek? with
  | none => exact finish_relocate groups
  | some t => exact atToken_relocate h ends groups slot t

end Move

theorem transports_mark {item : Token → Item Operand}
    {rest rest' : Token → Parse (List (Item Operand))}
    (hitem : ∀ t, item (t.relocate g) = recastItem g id (item t))
    (hrest : ∀ t, Transports g (List.map (recastItem g id)) (rest t) (rest' (t.relocate g))) :
    Transports g (List.map (recastItem g id))
      (do let t ← next; return item t :: (← rest t))
      (do let t ← next; return item t :: (← rest' t)) := by
  intro c c' h
  apply (mirrored_next h.resembles).bind
  intro t d t' d' ht
  obtain ⟨rfl, hd⟩ := ht
  apply (hrest t d d' hd).bind
  intro items e items' e' hitems
  obtain ⟨rfl, he⟩ := hitems
  refine ⟨?_, he⟩
  rw [hitem, List.map_cons]

section
variable {nested : Ending → Parse Expression}

theorem transports_itemsOf (hn : MovesAlong g nested) (ends : Ending) (fuel : Nat)
    (groups : List Span) (slot : Slot) :
    Transports g (List.map (recastItem g id)) (itemsOf nested ends fuel groups slot)
      (itemsOf nested ends fuel (groups.map (Span.relocate g)) slot) := by
  induction fuel generalizing groups slot with
  | zero => exact fun _ _ h => mirrored_failHere h.resembles _
  | succ fuel ih =>
    intro c c' h
    unfold itemsOf
    apply mirrored_get
    rw [Move.ofCursor_relocate h]
    cases Move.ofCursor ends groups slot c with
    | stop => exact ⟨rfl, h⟩
    | refuse cause spans => exact mirrored_fail _ rfl
    | operand =>
      apply (transports_operandOf hn c c' h).bind
      intro x d x' d' hx
      obtain ⟨rfl, hd⟩ := hx
      apply (ih groups .operator d d' hd).bind
      intro items e items' e' hitems
      obtain ⟨rfl, he⟩ := hitems
      exact ⟨rfl, he⟩
    | opening =>
      exact transports_mark (fun t => rfl) (fun t => ih (t.span :: groups) .first) c c' h
    | closing =>
      refine transports_mark (fun t => rfl) (fun t => ?_) c c' h
      rw [← List.map_tail]
      exact ih groups.tail .operator
    | unary op => exact transports_mark (fun t => rfl) (fun t => ih groups .operand) c c' h
    | binary op => exact transports_mark (fun t => rfl) (fun t => ih groups .operand) c c' h

theorem movesAlong_expressionAt (depth : Nat) : MovesAlong g (expressionAt depth) := by
  induction depth with
  | zero => exact fun ends c c' h => mirrored_failHere h.resembles _
  | succ depth ih =>
    intro ends c c' h
    unfold expressionAt expressionOf
    apply mirrored_bound h
    intro fuel
    apply (transports_itemsOf ih ends fuel [] .operand c c' h).bind
    intro items d items' d' hitems
    obtain ⟨rfl, hd⟩ := hitems
    cases items with
    | nil => exact mirrored_failHere hd.resembles _
    | cons first rest =>
      refine ⟨?_, hd⟩
      rw [relocate, recast, recastItems_eq_map, Span.relocate_through, ← span_recastItem g id,
        ← span_recastItem g id, ← getLastD_map (recastItem g id)]
      rfl

theorem movesAlong_expression : MovesAlong g expression := by
  intro ends c c' h
  unfold expression
  apply mirrored_bound h
  intro depth
  exact movesAlong_expressionAt depth ends c c' h

end

/-! ## Statements -/

theorem transports_semicolon : Transports g (Span.relocate g) semicolon semicolon := by
  intro c c' h
  unfold semicolon
  apply (transports_accept g .semicolon c c' h).bind
  intro t d t' d' ht
  obtain ⟨rfl, hd⟩ := ht
  cases t with
  | some t => exact ⟨rfl, hd⟩
  | none =>
    apply mirrored_get
    obtain ⟨u, hu, hu'⟩ := hd.previous
    rw [hu, hu']
    exact mirrored_fail _ rfl

theorem mirrored_declaration (h : c.Resembles g c') :
    Mirrored g declaration c declaration c' fun x d x' d' =>
      Statement.declaration x' = (Statement.declaration x).relocate g ∧ d.Mirrors g d' := by
  unfold declaration
  apply mirrored_attempt
  apply (mirrored_token h .letKeyword).bind
  intro keyword d keyword' d' hkeyword
  obtain ⟨rfl, hd⟩ := hkeyword
  apply (transports_accept g .name d d' hd).bind
  intro declared e declared' e' hdeclared
  obtain ⟨rfl, he⟩ := hdeclared
  cases declared with
  | none => exact mirrored_failHere he.resembles _
  | some declared =>
    apply (transports_accept g .assign e e' he).bind
    intro assign k assign' k' hassign
    obtain ⟨rfl, hk⟩ := hassign
    cases assign with
    | none => exact mirrored_failHere hk.resembles _
    | some assign =>
      apply (movesAlong_expression .semicolon k k' hk).bind
      intro value l value' l' hvalue
      obtain ⟨rfl, hl⟩ := hvalue
      apply (transports_semicolon l l' hl).bind
      intro last m last' m' hlast
      obtain ⟨rfl, hm⟩ := hlast
      exact ⟨rfl, hm⟩

theorem mirrored_statement (h : c.Resembles g c') :
    Mirrored g statement c statement c'
      fun s d s' d' => s' = s.relocate g ∧ d.Mirrors g d' := by
  unfold statement
  apply mirrored_attempt
  apply mirrored_peekKind h
  split
  · apply mirrored_map
    exact mirrored_declaration h
  · apply (mirrored_name h).bind
    intro callee d callee' d' hcallee
    obtain ⟨rfl, hd⟩ := hcallee
    apply mirrored_peekKind hd.resembles
    split
    · apply (transports_callOf movesAlong_expression callee d d' hd).bind
      intro x e x' e' hx
      obtain ⟨rfl, he⟩ := hx
      apply (transports_semicolon e e' he).bind
      intro last k last' k' hlast
      exact ⟨rfl, hlast.2⟩
    · exact mirrored_fail _ rfl
  · exact mirrored_failHere h _

end MatrixScript.Parse
