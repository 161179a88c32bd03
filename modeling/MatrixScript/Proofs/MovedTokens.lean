import MatrixScript.Proofs.TokenYields

/-!
# Tokens at another place

A program that is moved yields the tokens moved along, as long as tokens that do not touch still do
not.
-/

namespace MatrixScript

open Parse

section
variable (g : Nat → Nat)

/-- Tokens that touch when they are moved touched before. -/
def KeepsGaps (ts : List Token) : Prop :=
  ∀ t ∈ ts, ∀ u ∈ ts, g t.span.stop = g u.span.start → t.span.stop = u.span.start

end

theorem place_add (start n : Nat) (ws : List Word) :
    place (start + n) ws = (place start ws).map (Token.relocate (· + n)) := by
  induction ws generalizing start with
  | nil => rfl
  | cons w ws ih =>
    rw [place, place, List.map_cons, ← ih, Nat.add_right_comm start w.size n]
    refine congrArg (· :: _) ?_
    rw [Word.tokenAt, Word.tokenAt, Token.relocate, Span.relocate, Nat.add_right_comm start n]

theorem solid_relocate (g : Nat → Nat) (ts : List Token) :
    solid (ts.map (Token.relocate g)) = (solid ts).map (Token.relocate g) := List.filter_map

variable {g : Nat → Nat} {ts us : List Token}

theorem KeepsGaps.mono (h : KeepsGaps g ts) (hsub : us ⊆ ts) : KeepsGaps g us :=
  fun t ht u hu => h t (hsub ht) u (hsub hu)

theorem keepsGaps_add (n : Nat) (ts : List Token) : KeepsGaps (· + n) ts :=
  fun _ _ _ _ h => Nat.add_right_cancel h

theorem Token.joins_relocate {t : Token} {kind : TokenKind} (hts : KeepsGaps g (t :: ts)) :
    (t.relocate g).Joins kind (ts.map (Token.relocate g)) ↔ t.Joins kind ts := by
  cases ts with
  | nil => simp [Joins]
  | cons u ts =>
    constructor
    · rintro ⟨_, ⟨⟩, hk, hstop⟩
      exact ⟨u, rfl, hk, hts t (by simp) u (by simp) hstop⟩
    · rintro ⟨_, ⟨⟩, hk, hstop⟩
      exact ⟨u.relocate g, rfl, hk, congrArg g hstop⟩

/-! ## Numbers and lists -/

theorem NumeralYields.relocate {n : Located Int64} (h : NumeralYields n ts) :
    NumeralYields (n.relocate g) (ts.map (Token.relocate g)) := by
  cases h with
  | @plain t hk h =>
    exact .plain (t := t.relocate g) hk h
  | @signed m t hm hk hj h =>
    exact .signed (m := m.relocate g) (t := t.relocate g) hm hk (congrArg g hj) h

section
variable {β γ : Type} {R : β → List Token → Prop} {S : γ → List Token → Prop} {f : β → γ}

theorem Listed.relocate {ys : List β} (h : Listed R ys ts) (hk : KeepsGaps g ts)
    (hRS : ∀ y ∈ ys, ∀ us, KeepsGaps g us → R y us → S (f y) (us.map (Token.relocate g))) :
    Listed S (ys.map f) (ts.map (Token.relocate g)) := by
  induction h with
  | nil => exact .nil
  | singleton h => exact .singleton (hRS _ (by simp) _ hk h)
  | @cons y z ys ts us comma h hc hrest ih =>
    rw [List.map_append, List.map_cons]
    refine .cons (hRS y (by simp) _ (hk.mono (by simp)) h) hc (ih (hk.mono (by simp)) ?_)
    exact fun y hy => hRS y (List.mem_cons_of_mem _ hy)

theorem BracketedYields.relocate {m : Bracketed β} (h : BracketedYields R m ts)
    (hk : KeepsGaps g ts)
    (hRS : ∀ y ∈ m.items, ∀ us, KeepsGaps g us → R y us →
      S (f y) (us.map (Token.relocate g))) :
    BracketedYields S ⟨m.items.map f, m.span.relocate g⟩ (ts.map (Token.relocate g)) := by
  obtain ⟨ho, hc, hys⟩ := h
  rw [List.map_cons, List.map_append, List.map_singleton]
  exact @BracketedYields.mk _ _ (Token.relocate g _) (Token.relocate g _) _ _ ho hc
    (hys.relocate (hk.mono (by simp)) hRS)

end

/-! ## Expressions -/

def Operand.YieldsMoved (g : Nat → Nat) (x : Operand) : Prop :=
  ∀ ts, KeepsGaps g ts → OperandYields x ts →
    OperandYields (recastOperand g id x) (ts.map (Token.relocate g))

theorem ItemsYield.relocate {ends : Ending} {depth : Nat} {slot : Slot} {items : List (Item Operand)}
    (hx : ∀ x, .operand x ∈ items → x.YieldsMoved g) (hk : KeepsGaps g ts)
    (h : ItemsYield ends depth slot items ts) :
    ItemsYield ends depth slot (items.map (recastItem g id)) (ts.map (Token.relocate g)) := by
  induction items generalizing depth slot ts with
  | nil => cases h; exact .nil
  | cons item items ih =>
    have ih {depth slot us} (hus : us ⊆ ts) (h : ItemsYield ends depth slot items us) :=
      ih (fun x hmem => hx x (List.mem_cons_of_mem _ hmem)) (hk.mono hus) h
    cases h with
    | @operand _ _ _ x _ ts us hslot hflat hyields h =>
      rw [List.map_append]
      refine .operand hslot (fun hends m hm => ?_) (hx x (by simp) ts (hk.mono (by simp)) hyields)
        (ih (by simp) h)
      match x with
      | .number n => cases hm
      | .symbol s => cases hm
      | .call ⟨name, args, span, parens⟩ => cases hm
      | .matrix m => exact hflat hends m rfl
    | @opening _ _ _ t _ ts hkind hslot h =>
      exact .opening (t := t.relocate g) hkind hslot (ih (List.subset_cons_self _ _) h)
    | @closing _ _ _ t _ ts hkind hslot h =>
      exact .closing (t := t.relocate g) hkind hslot (ih (List.subset_cons_self _ _) h)
    | @unary _ _ _ op t _ ts hkind hslot hj h =>
      refine .unary (t := t.relocate g) hkind hslot (fun hneg => ?_)
        (ih (List.subset_cons_self _ _) h)
      rw [Token.joins_relocate hk]
      exact hj hneg
    | @binary _ _ _ op t _ ts hkind hslot h =>
      exact .binary (t := t.relocate g) hkind hslot (ih (List.subset_cons_self _ _) h)

theorem getLastD_map {α β : Type} (f : α → β) (x : α) (xs : List α) :
    (xs.map f).getLastD (f x) = f (xs.getLastD x) := by
  rw [List.getLastD_eq_getLast?, List.getLastD_eq_getLast?, List.getLast?_map]
  cases xs.getLast? <;> rfl

theorem ExpressionYields.relocate_of {ends : Ending} {e : Expression}
    (hx : ∀ x, .operand x ∈ e.items → x.YieldsMoved g) (hk : KeepsGaps g ts)
    (h : ExpressionYields ends e ts) :
    ExpressionYields ends (MatrixScript.relocate g e) (ts.map (Token.relocate g)) := by
  obtain @⟨_, first, items, _, h⟩ := h
  have hitems := h.relocate hx hk
  rw [MatrixScript.relocate, recast, recastItems_eq_map, Span.relocate_through, ← span_recastItem g id,
    ← span_recastItem g id, ← getLastD_map (recastItem g id)]
  exact .mk hitems

theorem CallYields.relocate_of {c : Call}
    (hx : ∀ e ∈ c.args, ∀ x, .operand x ∈ e.items → x.YieldsMoved g) (hk : KeepsGaps g ts)
    (h : CallYields c ts) : CallYields (recastCall g id c) (ts.map (Token.relocate g)) := by
  obtain @⟨name, opening, closing, args, ts, hn, ho, hc, hargs⟩ := h
  have hinner : KeepsGaps g ts := hk.mono fun t ht => by simp [ht]
  rw [recastCall_eq, List.map_cons, List.map_cons, List.map_append, List.map_singleton]
  exact @CallYields.mk (name.relocate g) (opening.relocate g) (closing.relocate g) _ _ hn ho hc
    (hargs.relocate hinner fun e he us hus => ExpressionYields.relocate_of (hx e he) hus)

theorem Operand.yieldsMoved (x : Operand) : x.YieldsMoved g := by
  refine Operand.induct (P := fun x => x.YieldsMoved g) (fun x ih => ?_) x
  intro ts hk h
  cases h with
  | number h => exact .number h.relocate
  | @symbol t ht => exact .symbol (t := t.relocate g) ht
  | call h => exact .call (h.relocate_of ih hk)
  | @matrix m _ h =>
    obtain ⟨rows, span⟩ := m
    rw [recastOperand, recastMatrix, recastRows_eq_map]
    refine .matrix (h.relocate hk fun row hrow us hus h => ?_)
    have hrow := h.relocate hus (f := MatrixScript.relocate g) fun e he us hus =>
      ExpressionYields.relocate_of (ih e (List.mem_flatMap.mpr ⟨row, hrow, he⟩)) hus
    obtain ⟨elements, span⟩ := row
    rw [recastRow, recastAll_eq_map]
    exact hrow

section
variable (hk : KeepsGaps g ts)
include hk

theorem ExpressionYields.relocate {ends : Ending} {e : Expression} (h : ExpressionYields ends e ts) :
    ExpressionYields ends (MatrixScript.relocate g e) (ts.map (Token.relocate g)) :=
  h.relocate_of (fun x _ => x.yieldsMoved) hk

theorem CallYields.relocate {c : Call} (h : CallYields c ts) :
    CallYields (recastCall g id c) (ts.map (Token.relocate g)) :=
  h.relocate_of (fun _ _ x _ => x.yieldsMoved) hk

/-! ## Statements -/

theorem DeclarationYields.relocate {d : Declaration} (h : DeclarationYields d ts) :
    DeclarationYields ⟨d.name.relocate g, MatrixScript.relocate g d.value, d.span.relocate g⟩
      (ts.map (Token.relocate g)) := by
  obtain @⟨keyword, name, assign, semicolon, value, ts, hl, hn, ha, hs, h⟩ := h
  have hinner : KeepsGaps g ts := hk.mono fun t ht => by simp [ht]
  rw [List.map_cons, List.map_cons, List.map_cons, List.map_append, List.map_singleton]
  exact @DeclarationYields.mk (keyword.relocate g) (name.relocate g) (assign.relocate g)
    (semicolon.relocate g) _ _ hl hn ha hs (h.relocate hinner)

theorem StatementYields.relocate {s : Statement} (h : StatementYields s ts) :
    StatementYields (s.relocate g) (ts.map (Token.relocate g)) := by
  cases h with
  | declaration h => exact .declaration (h.relocate hk)
  | @call c ts semicolon h hs =>
    rw [List.map_append, List.map_singleton]
    exact @StatementYields.call _ _ (semicolon.relocate g) (h.relocate (hk.mono (by simp))) hs

theorem ScriptYields.relocate {script : List Statement} (h : ScriptYields script ts) :
    ScriptYields (script.map (Statement.relocate g)) (ts.map (Token.relocate g)) := by
  induction h with
  | nil => exact .nil
  | @skip script ts semicolon hs _ ih =>
    exact @ScriptYields.skip _ _ (semicolon.relocate g) hs (ih (hk.mono (by simp)))
  | cons hs _ ih =>
    rw [List.map_append]
    exact .cons (hs.relocate (hk.mono (by simp))) (ih (hk.mono (by simp)))

end

end MatrixScript
