import MatrixScript.Proofs.ProgramNodes
import MatrixScript.Proofs.RereadOperands
import Mathlib.Algebra.Order.Ring.Int

/-!
# Where expressions end

An expression is read up to the first token outside brackets that ends it, and that token is left.
What has been read closes each bracket that it opens and no other.
-/

namespace MatrixScript

variable {ends : Ending} {due due' : List TokenKind} {t : Token} {ts us : List Token}

/-! ## Brackets -/

namespace TokenKind

def closer? : TokenKind → Option TokenKind
  | .openParen => some .closeParen
  | .openSquare => some .closeSquare
  | _ => none

/-- Passes one token; `due` holds the closing brackets that are still due, innermost first. -/
def pass : TokenKind → List TokenKind → Option (List TokenKind)
  | .openParen, due => some (.closeParen :: due)
  | .openSquare, due => some (.closeSquare :: due)
  | .closeParen, .closeParen :: due => some due
  | .closeSquare, .closeSquare :: due => some due
  | .closeParen, _ | .closeSquare, _ => none
  | _, due => some due

def turn : TokenKind → Int
  | .openParen | .openSquare => 1
  | .closeParen | .closeSquare => -1
  | _ => 0

theorem pass_of_closer? {opening closing : TokenKind} (h : opening.closer? = some closing)
    (due : List TokenKind) :
    opening.pass due = some (closing :: due) ∧ closing.pass (closing :: due) = some due := by
  cases opening <;> cases h <;> exact ⟨rfl, rfl⟩

theorem pass_outside {kind : TokenKind} (outside : List TokenKind)
    (h : kind.pass due = some due') : kind.pass (due ++ outside) = some (due' ++ outside) := by
  unfold pass at h
  split at h <;> cases h <;> simp_all [pass]

theorem stopsAt_of_closer? {opening closing : TokenKind} (h : opening.closer? = some closing) :
    ends.stopsAt opening = false := by
  cases opening <;> cases h <;> cases ends <;> rfl

theorem turn_of_pass {kind : TokenKind} (h : kind.pass due = some due') :
    kind.turn = due'.length - due.length := by
  unfold pass at h
  split at h <;> cases h <;> simp [turn]

end TokenKind

/-- The closing brackets that are due after the tokens; nothing, if one of the tokens closes what is
not open. -/
def dueAfter? (due : List TokenKind) (ts : List Token) : Option (List TokenKind) :=
  ts.foldlM (fun due t => t.kind.pass due) due

def Paired (ts : List Token) : Prop := dueAfter? [] ts = some []

def depth (ts : List Token) : Int := (ts.map (·.kind.turn)).sum

theorem dueAfter?_cons (t : Token) (ts : List Token) :
    dueAfter? due (t :: ts) = (t.kind.pass due).bind (dueAfter? · ts) := rfl

theorem dueAfter?_append (ts us : List Token) :
    dueAfter? due (ts ++ us) = (dueAfter? due ts).bind (dueAfter? · us) := List.foldlM_append

theorem dueAfter?_outside (outside : List TokenKind) (h : dueAfter? due ts = some due') :
    dueAfter? (due ++ outside) ts = some (due' ++ outside) := by
  induction ts generalizing due with
  | nil => cases h; rfl
  | cons t ts ih =>
    rw [dueAfter?_cons, Option.bind_eq_some_iff] at h ⊢
    obtain ⟨due₁, ht, hts⟩ := h
    exact ⟨due₁ ++ outside, TokenKind.pass_outside outside ht, ih hts⟩

theorem depth_of_dueAfter? (h : dueAfter? due ts = some due') :
    depth ts = due'.length - due.length := by
  induction ts generalizing due with
  | nil => cases h; simp [depth]
  | cons t ts ih =>
    rw [dueAfter?_cons, Option.bind_eq_some_iff] at h
    obtain ⟨due₁, ht, hts⟩ := h
    have hrest : (ts.map (·.kind.turn)).sum = due'.length - due₁.length := ih hts
    rw [depth, List.map_cons, List.sum_cons, hrest, TokenKind.turn_of_pass ht]
    omega

namespace Paired

theorem nil : Paired [] := rfl

theorem dueAfter? (h : Paired ts) (due : List TokenKind) : dueAfter? due ts = some due :=
  dueAfter?_outside due h

theorem dueAfter?_append (h : Paired ts) (us : List Token) :
    MatrixScript.dueAfter? due (ts ++ us) = MatrixScript.dueAfter? due us := by
  rw [MatrixScript.dueAfter?_append, h.dueAfter?, Option.bind_some]

theorem append (h : Paired ts) (hus : Paired us) : Paired (ts ++ us) :=
  (h.dueAfter?_append us).trans hus

theorem cons (ht : t.kind.pass [] = some []) (h : Paired ts) : Paired (t :: ts) := by
  rw [Paired, dueAfter?_cons, ht]
  exact h

theorem enclosed {opening closing : Token} (ho : opening.kind.closer? = some closing.kind)
    (h : Paired ts) : Paired (opening :: (ts ++ [closing])) := by
  obtain ⟨hopen, hclose⟩ := TokenKind.pass_of_closer? ho []
  rw [Paired, dueAfter?_cons, hopen, Option.bind_some, h.dueAfter?_append, dueAfter?_cons, hclose]
  rfl

end Paired

/-! ## Tokens outside brackets -/

/-- No token ends the expression at a place where no bracket is due. -/
def Unended (ends : Ending) (due : List TokenKind) (ts : List Token) : Prop :=
  ∀ before t after, ts = before ++ t :: after → dueAfter? due before = some [] →
    ends.stopsAt t.kind = false

namespace Unended

theorem nil : Unended ends due [] := by
  intro before t after h
  simp at h

theorem cons (ht : due = [] → ends.stopsAt t.kind = false)
    (hts : ∀ due', t.kind.pass due = some due' → Unended ends due' ts) :
    Unended ends due (t :: ts) := by
  intro before u after h hdue
  cases before with
  | nil =>
    cases h
    cases hdue
    exact ht rfl
  | cons t' before =>
    obtain ⟨rfl, rfl⟩ := List.cons.inj h
    rw [dueAfter?_cons, Option.bind_eq_some_iff] at hdue
    obtain ⟨due₁, hpass, hdue⟩ := hdue
    exact hts due₁ hpass before u after rfl hdue

theorem append (hts : Unended ends due ts)
    (hus : ∀ due', dueAfter? due ts = some due' → Unended ends due' us) :
    Unended ends due (ts ++ us) := by
  induction ts generalizing due with
  | nil => exact hus due rfl
  | cons t ts ih =>
    refine cons (fun hdue => hts [] t ts rfl (by rw [hdue]; rfl)) fun due₁ ht => ih ?_ ?_
    · intro before u after h hdue
      refine hts (t :: before) u after (by rw [h]; rfl) ?_
      rw [dueAfter?_cons, ht]
      exact hdue
    · intro due' hdue
      refine hus due' ?_
      rw [dueAfter?_cons, ht]
      exact hdue

theorem of_due (h : Paired ts) (closing : TokenKind) : Unended ends (closing :: due) ts := by
  rintro before t after rfl hdue
  rw [Paired, dueAfter?_append, Option.bind_eq_some_iff] at h
  obtain ⟨due₁, hbefore, -⟩ := h
  have houtside := dueAfter?_outside (closing :: due) hbefore
  rw [List.nil_append, hdue] at houtside
  simp at houtside

theorem enclosed {opening closing : Token} (ho : opening.kind.closer? = some closing.kind)
    (h : Paired ts) : Unended ends [] (opening :: (ts ++ [closing])) := by
  refine cons (fun _ => TokenKind.stopsAt_of_closer? ho) fun due₁ hdue₁ => ?_
  rw [(TokenKind.pass_of_closer? ho []).1] at hdue₁
  cases hdue₁
  refine (of_due h _).append fun due₂ hdue₂ => ?_
  rw [h.dueAfter?] at hdue₂
  cases hdue₂
  refine cons (fun hnil => by cases hnil) fun _ _ => nil

theorem of_paired (h : Paired ts) (hnone : Unended ends [] ts) (due : List TokenKind) :
    Unended ends due ts := by
  cases due with
  | nil => exact hnone
  | cons closing due => exact of_due h closing

end Unended

structure Completes (ends : Ending) (due : List TokenKind) (ts : List Token) : Prop where
  closed : dueAfter? due ts = some []
  unended : Unended ends due ts

namespace Completes

theorem nil : Completes ends [] [] := ⟨rfl, .nil⟩

theorem cons (ht : t.kind.pass due = some due') (hstop : due = [] → ends.stopsAt t.kind = false)
    (h : Completes ends due' ts) : Completes ends due (t :: ts) := by
  refine ⟨?_, .cons hstop fun due₁ hdue₁ => ?_⟩
  · rw [dueAfter?_cons, ht]
    exact h.closed
  · rw [ht] at hdue₁
    cases hdue₁
    exact h.unended

theorem word {kind : TokenKind} (hk : t.kind = kind)
    (hword : kind ∈ [TokenKind.int, .name, .add, .sub, .mul, .div]) (h : Completes ends due ts) :
    Completes ends due (t :: ts) := by
  have hplain : kind.pass due = some due ∧ ends.stopsAt kind = false := by
    simp only [List.mem_cons, List.not_mem_nil, or_false] at hword
    rcases hword with rfl | rfl | rfl | rfl | rfl | rfl <;> cases ends <;> exact ⟨rfl, rfl⟩
  exact .cons (hk ▸ hplain.1) (fun _ => hk ▸ hplain.2) h

theorem append (hts : Completes ends [] ts) (h : Completes ends due us) :
    Completes ends due (ts ++ us) := by
  have hpair : Paired ts := hts.closed
  refine ⟨(hpair.dueAfter?_append us).trans h.closed, ?_⟩
  refine (Unended.of_paired hpair hts.unended due).append fun due₁ hdue₁ => ?_
  rw [hpair.dueAfter?] at hdue₁
  cases hdue₁
  exact h.unended

theorem enclosed {opening closing : Token} (ho : opening.kind.closer? = some closing.kind)
    (h : Paired ts) : Completes ends [] (opening :: (ts ++ [closing])) :=
  ⟨h.enclosed ho, .enclosed ho h⟩

end Completes

/-! ## Tokens of an expression -/

theorem Listed.paired {β : Type} {R : β → List Token → Prop} {ys : List β} (h : Listed R ys ts)
    (hR : ∀ y ∈ ys, ∀ us, R y us → Paired us) : Paired ts := by
  induction h with
  | nil => exact .nil
  | singleton h => exact hR _ List.mem_cons_self _ h
  | @cons y z ys ts us comma h hc _ ih =>
    obtain ⟨hy, hys⟩ := List.forall_mem_cons.mp hR
    exact (hy ts h).append (.cons (by rw [hc]; rfl) (ih hys))

theorem BracketedYields.completes {β : Type} {R : β → List Token → Prop} {m : Bracketed β}
    (h : BracketedYields R m ts) (hR : ∀ y ∈ m.items, ∀ us, R y us → Paired us) :
    Completes ends [] ts := by
  obtain ⟨ho, hc, hys⟩ := h
  exact .enclosed (by rw [ho, hc]; rfl) (hys.paired hR)

/-- Whatever ends the expression that the operand stands in, no token of the operand does. -/
def Operand.Completes (x : Operand) : Prop :=
  ∀ ends ts, OperandYields x ts → MatrixScript.Completes ends [] ts

theorem ItemsYield.completes {depth : Nat} {slot : Slot} {items : List (Item Operand)}
    (h : ItemsYield ends depth slot items ts) (hx : ∀ x, .operand x ∈ items → x.Completes) :
    Completes ends (.replicate depth .closeParen) ts := by
  induction items generalizing depth slot ts with
  | nil => cases h; exact .nil
  | cons item items ih =>
    have ih {depth slot us} (h : ItemsYield ends depth slot items us) :=
      ih h fun x hmem => hx x (List.mem_cons_of_mem _ hmem)
    cases h with
    | operand _ _ hyields h => exact (hx _ List.mem_cons_self ends _ hyields).append (ih h)
    | opening hk _ h =>
      exact .cons (by rw [hk]; rfl) (fun _ => by rw [hk]; cases ends <;> rfl) (ih h)
    | closing hk _ h => exact .cons (by rw [hk]; rfl) (fun hnil => by cases hnil) (ih h)
    | @unary _ _ _ op _ _ _ hk _ _ h => exact .word hk (by cases op <;> decide) (ih h)
    | @binary _ _ _ op _ _ _ hk _ h => exact .word hk (by cases op <;> decide) (ih h)

theorem ExpressionYields.completes_of {e : Expression} (h : ExpressionYields ends e ts)
    (hx : ∀ x, .operand x ∈ e.items → x.Completes) : Completes ends [] ts := by
  obtain ⟨h⟩ := h
  exact h.completes hx

theorem Operand.completes (x : Operand) : x.Completes := by
  refine Operand.induct (P := Operand.Completes) (fun x ih => ?_) x
  intro ends ts h
  cases h with
  | number h =>
    cases h with
    | plain hk => exact .word hk (by decide) .nil
    | signed hm hk => exact .word hm (by decide) (.word hk (by decide) .nil)
  | symbol hk => exact .word hk (by decide) .nil
  | call h =>
    obtain ⟨hn, ho, hc, hargs⟩ := h
    refine .word hn (by decide) (.enclosed (by rw [ho, hc]; rfl) ?_)
    refine hargs.paired fun e he us hus => ?_
    exact (hus.completes_of (ih e he)).closed
  | matrix h =>
    refine h.completes fun row hrow us hus => ?_
    have hrow' : MatrixScript.Completes ends [] us := by
      refine hus.completes fun e he vs hvs => (hvs.completes_of (ih e ?_)).closed
      exact List.mem_flatMap.mpr ⟨row, hrow, he⟩
    exact hrow'.closed

theorem ExpressionYields.completes {e : Expression} (h : ExpressionYields ends e ts) :
    Completes ends [] ts := h.completes_of fun x _ => x.completes

/-! ## The token that ends an expression -/

namespace Parse

open Cursor

variable {α : Type} {p : Parse α} {c : Cursor} {groups : List Span} {slot : Slot}

theorem returns_anything : Returns p c fun _ _ => True := by
  unfold Returns Ends
  split <;> trivial

theorem stopsAt_of_stop (h : Move.ofCursor ends groups slot c = .stop) (ht : c.peek? = some t) :
    ends.stopsAt t.kind = true := by
  cases Move.chosen_of_eq h with
  | stop hgroups hends => exact hends t ht

def Halts (ends : Ending) (c : Cursor) : Prop := ∀ t, c.peek? = some t → ends.stopsAt t.kind = true

theorem returns_itemsOf_halts (nested : Ending → Parse Expression) (fuel : Nat) :
    Returns (itemsOf nested ends fuel groups slot) c fun _ c' => Halts ends c' := by
  induction fuel generalizing c groups slot with
  | zero => exact ends_failHere.mpr trivial
  | succ fuel ih =>
    unfold itemsOf
    rw [Returns, ends_bind, ends_get]
    cases hm : Move.ofCursor ends groups slot c with
    | stop => exact fun t ht => stopsAt_of_stop hm ht
    | refuse cause spans => trivial
    | _ => exact returns_anything.bind fun _ _ _ => ih.bind fun _ _ h => h

theorem returns_expression_halts : Returns (expression ends) c fun _ c' => Halts ends c' := by
  unfold expression
  rw [Returns, ends_bind, ends_bound]
  unfold expressionAt expressionOf
  rw [ends_bind, ends_bound]
  refine (returns_itemsOf_halts _ _).bind fun items c' h => ?_
  cases items with
  | nil => exact ends_failHere.mpr trivial
  | cons first rest => exact h

end Parse

theorem Cursor.Sees.exists_taken {text : String} {c c' : Cursor} {rest : List Token}
    (h : c.Sees text (ts ++ rest)) (h' : c'.Sees text rest) (hts : ts ≠ []) :
    ∃ taken, c.ahead = taken ++ c'.ahead ∧ MatrixScript.solid taken = ts := by
  rcases List.suffix_or_suffix_of_suffix h'.suffix h.suffix with ⟨taken, htaken⟩ | ⟨taken, htaken⟩
  · have hsolid := h.solid
    rw [← htaken, solid_append, h'.solid] at hsolid
    exact ⟨taken, htaken.symm, List.append_cancel_right hsolid⟩
  · -- the later cursor would have more tokens ahead
    have hsolid := h'.solid
    rw [← htaken, solid_append, h.solid] at hsolid
    have hlength := congrArg List.length hsolid
    have hpos := List.length_pos_of_ne_nil hts
    simp only [List.length_append] at hlength
    omega

theorem ExpressionYields.ne_nil {e : Expression} (h : ExpressionYields ends e ts) : ts ≠ [] := by
  obtain ⟨h⟩ := h
  obtain ⟨first, last, hfirst, -⟩ := h.covers
  rintro rfl
  cases hfirst

/-- An expression takes all tokens up to the first one that ends it at depth zero, and leaves that
one. -/
theorem expression_ends {text : String} {c c' : Cursor} {e : Expression}
    (hc : c.tokens = tokenize text) (h : Parse.expression ends c = .ok e c') :
    ∃ taken, c.ahead = taken ++ c'.ahead ∧ Paired (solid taken) ∧ depth (solid taken) = 0 ∧
      (∀ before t after, solid taken = before ++ t :: after → depth before = 0 →
        ends.stopsAt t.kind = false) ∧
      ∀ t, c'.peek? = some t → ends.stopsAt t.kind = true := by
  have hsees : c.Sees text (solid c.ahead) := ⟨⟨c.past.reverse, hc⟩, rfl⟩
  obtain ⟨ts, rest, hts, hyields, hrest⟩ :=
    (Parse.readsYields_expression ends c _ hsees).of_eq h
  rw [hts] at hsees
  obtain ⟨taken, hahead, rfl⟩ := hsees.exists_taken hrest hyields.ne_nil
  obtain ⟨hpair, hunended⟩ := hyields.completes
  refine ⟨taken, hahead, hpair, by simpa using depth_of_dueAfter? hpair, ?_,
    Parse.returns_expression_halts.of_eq h⟩
  intro before t after hsplit hdepth
  have hdue : (dueAfter? [] before).bind (dueAfter? · (t :: after)) = some [] := by
    rw [← dueAfter?_append, ← hsplit]
    exact hpair
  obtain ⟨due, hbefore, -⟩ := Option.bind_eq_some_iff.mp hdue
  have hlength := depth_of_dueAfter? hbefore
  rw [hdepth] at hlength
  have hnil : due = [] := List.eq_nil_of_length_eq_zero (by simpa using hlength.symm)
  exact hunended before t after hsplit (hnil ▸ hbefore)

def endOf? (ends : Ending) (c : Cursor) : Option Cursor :=
  match Parse.expression ends c with
  | .ok _ c' => some c'
  | .error _ _ => none

theorem exists_of_endOf? {c c' : Cursor} (h : endOf? ends c = some c') :
    ∃ e, Parse.expression ends c = .ok e c' := by
  unfold endOf? at h
  split at h
  · next hp =>
    cases h
    exact ⟨_, hp⟩
  · cases h

/-- The first argument of `f` holds a call, a matrix and a group; it ends at the last comma. -/
theorem expression_ends_of_argument :
    let text := "f(a(1, [[2], [3, 4]]) - (b), c);"
    let tokens := tokenize text
    let c : Cursor := ⟨(tokens.take 2).reverse, tokens.drop 2⟩
    let c' : Cursor := ⟨(tokens.take 27).reverse, tokens.drop 27⟩
    (∃ e, Parse.expression .argument c = .ok e c') ∧ c'.peekKind? = some .comma ∧
      ∃ taken, c.ahead = taken ++ c'.ahead ∧ Paired (solid taken) ∧ depth (solid taken) = 0 ∧
        (∀ before t after, solid taken = before ++ t :: after → depth before = 0 →
          Ending.argument.stopsAt t.kind = false) ∧
        ∀ t, c'.peek? = some t → Ending.argument.stopsAt t.kind = true := by
  intro text tokens c c'
  have hend : endOf? .argument c = some c' := by decide +kernel
  obtain ⟨e, he⟩ := exists_of_endOf? hend
  have hc : c.tokens = tokenize text := by simp [c, tokens, Cursor.tokens]
  exact ⟨⟨e, he⟩, by decide +kernel, expression_ends hc he⟩

end MatrixScript
