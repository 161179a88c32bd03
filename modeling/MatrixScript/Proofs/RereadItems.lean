import MatrixScript.Proofs.RereadOperands

/-!
# Reading items again

Each item of an expression is read again, one after the other.  Only a minus sign may be read
otherwise: as part of the number after it if it is joined to it, as an operator if it is not.
-/

namespace MatrixScript

variable {text : String}

namespace Parse

open Cursor

variable {v : View} {nested : Ending → Parse Expression} {depth : Nat} {E : Fault → Prop}
  {c : Cursor} {t : Token} {ts rest : List Token}

/-! ## Moves -/

variable {ends : Ending} {groups : List Span} {slot : Slot} {fuel : Nat}
  {Q : List (Item Operand) → Cursor → Prop}

theorem ofCursor_seen (h : c.Sees text (t :: ts)) :
    Move.ofCursor ends groups slot c = Move.atToken ends groups slot c t := by
  rw [Move.ofCursor, h.peek?]
  rfl

theorem ofCursor_stops (h : c.Sees text rest) (hrest : Stops ends rest) :
    Move.ofCursor ends [] slot c = .stop := by
  cases rest with
  | nil =>
    rw [Move.ofCursor, h.peek?]
    rfl
  | cons t rest =>
    have hstop : ends.stopsAt t.kind = true := hrest t rfl
    rw [ofCursor_seen h]
    unfold Move.atToken
    cases hk : t.kind <;> rw [hk] at hstop <;> cases ends <;> first | rfl | cases hstop

/-- A sign that is not joined to digits. -/
theorem ofCursor_sign {op : UnaryOp} (h : c.Sees text (t :: ts)) (hk : t.kind = op.kind)
    (hslot : slot ≠ .operator) (hj : op = .neg → ¬ t.Joins .int ts) :
    Move.ofCursor ends groups slot c = .unary op := by
  rw [ofCursor_seen h]
  cases op with
  | pos => simp [Move.atToken, hk, UnaryOp.kind, hslot]
  | neg =>
    have hjoined : c.peekJoined .sub .int = false := by
      rw [Bool.eq_false_iff]
      exact fun hjoined => hj rfl ((h.peekJoined_iff rfl).mp hjoined).2
    simp [Move.atToken, hk, UnaryOp.kind, hslot, hjoined]

theorem ends_itemsOf_operand {P : Operand → Cursor → Prop}
    (hmove : Move.ofCursor ends groups slot c = .operand) (hx : Ends E (operandOf nested) c P)
    (hitems : ∀ x c', P x c' → Ends E (itemsOf nested ends fuel groups .operator) c'
      fun items c'' => Q (.operand x :: items) c'') :
    Ends E (itemsOf nested ends (fuel + 1) groups slot) c Q := by
  unfold itemsOf
  rw [ends_bind, ends_get, hmove]
  exact hx.bind fun x c' hP => ends_bind.mpr (hitems x c' hP)

theorem ends_itemsOf_number (sign : Option Token) (h : c.Sees text (sign.toList ++ t :: rest))
    (hk : t.kind = .int) (hsign : ∀ m ∈ sign, m.kind = .sub ∧ m.span.stop = t.span.start)
    (hrest : EndsOperand? rest) (hslot : slot ≠ .operator)
    (hover : ¬ InInt64 (literal sign t).1 → E ⟨.integerOverflow, [(literal sign t).2]⟩)
    (hitems : ∀ c', InInt64 (literal sign t).1 → c'.Sees text rest →
      Ends E (itemsOf nested ends fuel groups .operator) c' fun items c'' =>
        Q (.operand (.number ⟨.ofInt (literal sign t).1, (literal sign t).2⟩) :: items) c'') :
    Ends E (itemsOf nested ends (fuel + 1) groups slot) c Q := by
  have hnumber : Ends E (.number <$> numeral) c fun x c' => InInt64 (literal sign t).1 ∧
      x = Operand.number ⟨.ofInt (literal sign t).1, (literal sign t).2⟩ ∧ c'.Sees text rest := by
    refine ends_map.mpr ((ends_numeral sign h hk hsign hrest hover).mono ?_)
    rintro n c' ⟨hsize, rfl, h'⟩
    exact ⟨hsize, rfl, h'⟩
  have hoperand : Ends E (operandOf nested) c fun x c' => InInt64 (literal sign t).1 ∧
      x = Operand.number ⟨.ofInt (literal sign t).1, (literal sign t).2⟩ ∧ c'.Sees text rest := by
    unfold operandOf
    rw [ends_bind, ends_peekKind, h.peekKind?]
    cases sign with
    | none =>
      rw [Option.toList_none, List.nil_append, List.head?_cons, Option.map_some, hk]
      exact hnumber
    | some m =>
      rw [Option.toList_some, List.cons_append, List.head?_cons, Option.map_some, (hsign m rfl).1]
      exact hnumber
  refine ends_itemsOf_operand ?_ hoperand ?_
  · cases sign with
    | none =>
      rw [Option.toList_none] at h
      rw [ofCursor_seen h]
      simp [Move.atToken, hk, hslot]
    | some m =>
      obtain ⟨hm, hstop⟩ := hsign m rfl
      have hjoined : c.peekJoined .sub .int = true :=
        (h.peekJoined_iff rfl).mpr ⟨hm, t, rfl, hk, hstop⟩
      rw [Option.toList_some] at h
      rw [ofCursor_seen h]
      simp [Move.atToken, hm, hslot, hjoined]
  · rintro _ c' ⟨hsize, rfl, h'⟩
    exact hitems c' hsize h'

theorem ends_item {item : Token → Item Operand} {p : Token → Parse (List (Item Operand))}
    (h : c.Sees text (t :: ts))
    (hp : ∀ c', c'.Sees text ts → Takes c t c' →
      Ends E (p t) c' fun items c'' => Q (item t :: items) c'') :
    Ends E (do let t ← next; return item t :: (← p t)) c Q := by
  refine (ends_next_seen h).bind ?_
  rintro t c' ⟨rfl, h', htakes⟩
  exact ends_bind.mpr (hp c' h' htakes)

/-! ## Items -/

/-- An operand other than a number begins with a name or, if it is a matrix, with a bracket. -/
theorem ofCursor_operandYields {x : Operand} {us : List Token} (hx : OperandYields x ts)
    (hne : ∀ n, x ≠ .number n) (hflat : ends = .element → ∀ m, x ≠ .matrix m)
    (hus : v.Alike us ts) (h : c.Sees text (us ++ rest)) (hslot : slot ≠ .operator) :
    Move.ofCursor ends groups slot c = .operand := by
  cases hx with
  | number hx => exact absurd rfl (hne _)
  | symbol hk =>
    obtain ⟨t, us, rfl, ht, -⟩ := hus.cons
    rw [ofCursor_seen h]
    simp [Move.atToken, View.kind_eq ht, hk, hslot]
  | call hx =>
    cases hx with
    | mk hk =>
      obtain ⟨t, us, rfl, ht, -⟩ := hus.cons
      rw [ofCursor_seen h]
      simp [Move.atToken, View.kind_eq ht, hk, hslot]
  | matrix hx =>
    obtain ⟨t, ts, rfl, hk⟩ := hx.exists_head
    obtain ⟨t', us, rfl, ht, -⟩ := hus.cons
    have hends : ends ≠ .element := fun hends => hflat hends _ rfl
    rw [ofCursor_seen h]
    simp [Move.atToken, View.kind_eq ht, hk, hslot, hends]

theorem endsOperand_items {n : Nat} {items : List (Item Operand)} {us : List Token}
    (h : ItemsYield ends n .operator items ts) (hus : v.Alike us ts) (hrest : Stops ends rest) :
    EndsOperand? (us ++ rest) := by
  cases h with
  | nil =>
    obtain rfl := hus.nil
    exact stops_endsOperand hrest
  | operand hslot => exact absurd rfl hslot
  | opening _ hslot => exact absurd rfl hslot
  | closing hk =>
    obtain ⟨t, us, rfl, ht, -⟩ := hus.cons
    rintro _ ⟨⟩
    rw [View.kind_eq ht, hk]
    rfl
  | unary _ hslot => exact absurd rfl hslot
  | @binary _ _ _ op _ _ _ hk =>
    obtain ⟨t, us, rfl, ht, -⟩ := hus.cons
    rintro _ ⟨⟩
    rw [View.kind_eq ht, hk]
    cases op <;> rfl

theorem number_of_digits {x : Operand} (h : OperandYields x (t :: ts)) (hk : t.kind = .int) :
    ts = [] ∧ InInt64 t.magnitude ∧ x = .number ⟨.ofInt t.magnitude, t.span⟩ := by
  cases h with
  | number h =>
    cases h with
    | plain _ hsize => exact ⟨rfl, hsize, rfl⟩
    | signed hm => simp [hm] at hk
  | symbol h => simp [h] at hk
  | call h =>
    cases h with
    | mk h => simp [h] at hk
  | matrix h =>
    obtain ⟨_, _, ⟨⟩, hk'⟩ := h.exists_head
    simp [hk'] at hk

/-- Items that begin with digits begin with a number without a sign. -/
theorem exists_number_of_digits {n : Nat} {items : List (Item Operand)}
    (h : ItemsYield ends n slot items (t :: ts)) (hk : t.kind = .int) :
    InInt64 t.magnitude ∧ ∃ items', ItemsYield ends n .operator items' ts ∧
      items = .operand (.number ⟨.ofInt t.magnitude, t.span⟩) :: items' := by
  generalize hts : t :: ts = tokens at h
  cases h with
  | nil => cases hts
  | operand _ _ hx hitems =>
    obtain ⟨t', us, rfl, -⟩ := hx.exists_head
    obtain ⟨rfl, rfl⟩ := List.cons.inj hts
    obtain ⟨rfl, hsize, rfl⟩ := number_of_digits hx hk
    exact ⟨hsize, _, hitems, rfl⟩
  | opening hk' => cases hts; simp [hk'] at hk
  | closing hk' => cases hts; simp [hk'] at hk
  | @unary _ _ _ op _ _ _ hk' => cases hts; cases op <;> simp [hk', UnaryOp.kind] at hk
  | @binary _ _ _ op _ _ _ hk' => cases hts; cases op <;> simp [hk', BinaryOp.kind] at hk

/-! ### Signs -/

theorem nonneg_magnitude (h : InInt64 t.magnitude) : 0 ≤ Int64.ofInt t.magnitude := by
  have hpos : 0 ≤ t.magnitude := Int.natCast_nonneg _
  obtain ⟨hle, hlt⟩ := h
  have htoInt : (Int64.ofInt t.magnitude).toInt = t.magnitude :=
    Int64.toInt_ofInt_of_le hle (by omega)
  rwa [Int64.le_iff_toInt_le, htoInt]

theorem inInt64_neg (h : InInt64 t.magnitude) : InInt64 (-t.magnitude) := by
  have hpos : 0 ≤ t.magnitude := Int.natCast_nonneg _
  unfold InInt64 at *
  omega

theorem detachedOverflow {m : Token} {c' : Cursor} (h : c.Sees text (m :: t :: ts))
    (htakes : Takes c m c') (hm : m.kind = .sub) (hk : t.kind = .int)
    (hj : m.span.stop ≠ t.span.start) (hsize : ¬ InInt64 t.magnitude)
    (hneg : InInt64 (-t.magnitude)) : DetachedOverflow text ⟨.integerOverflow, [t.span]⟩ := by
  obtain ⟨us, hus, h'⟩ := h.takes htakes
  obtain ⟨-, rfl⟩ := List.cons.inj hus
  obtain ⟨skipped, hskipped, hahead⟩ := htakes.ahead
  obtain ⟨before, hbefore⟩ := h.suffix
  have hpeek : c'.ahead.find? (!·.isBlank) = some t := h'.peek?
  obtain ⟨-, blanks, after, hahead', hblanks⟩ := List.find?_eq_some_iff_append.mp hpeek
  refine ⟨before ++ skipped, m, blanks, t, after, ?_, hm, hk, ?_, ?_, ?_, rfl⟩
  · rw [← hbefore, hahead, hahead', List.append_assoc]
  · rintro rfl
    -- no blank is left that would keep the digits from being joined
    have hsuffix : m :: c'.ahead <:+ tokenize text :=
      ⟨before ++ skipped, by rw [← hbefore, hahead, List.append_assoc]⟩
    have hjoins : m.Joins .int (solid c'.ahead) :=
      (joins_solid_iff rfl hsuffix).mpr ⟨t, by rw [hahead']; rfl, hk⟩
    rw [h'.solid] at hjoins
    obtain ⟨u, ⟨⟩, -, hstop⟩ := hjoins
    exact hj hstop
  · exact fun b hb => by simpa using hblanks b hb
  · have hpos : 0 ≤ t.magnitude := Int.natCast_nonneg _
    unfold InInt64 at hsize hneg
    omega

/-! ### Items below a bound -/

/-- Items that do not need more than the given fuel and depth are read again. -/
def RereadsItems (v : View) (text : String) (nested : Ending → Parse Expression) (ends : Ending)
    (depth fuel : Nat) : Prop :=
  ∀ groups slot items ts, ItemsYield ends groups.length slot items ts → ts.length ≤ depth →
    ts.length < fuel →
      Rereads v text (itemsOf nested ends fuel groups slot) v.items (Stops ends) items ts

theorem ends_item_rereads (make : Span → Item Operand) (groups' : Span → List Span) {slot' : Slot}
    {items : List (Item Operand)} {us : List Token}
    (ih : RereadsItems v text nested ends depth fuel)
    (hmake : ∀ s s' : Span, s.relocate v.offset = s'.relocate v.offset →
      v.item (make s) = v.item (make s'))
    (hitems : ∀ s, ItemsYield ends (groups' s).length slot' items ts)
    (hdepth : (t :: ts).length ≤ depth) (hfuel : (t :: ts).length < fuel + 1)
    (hus : v.Alike us (t :: ts)) (hc : c.Sees text (us ++ rest)) (hrest : Stops ends rest) :
    Ends (v.Excuses text) (do
      let u ← next
      return make u.span :: (← itemsOf nested ends fuel (groups' u.span) slot')) c
      fun read c' => v.items read = v.items (make t.span :: items) ∧ c'.Sees text rest := by
  obtain ⟨u, us, rfl, hu, hus₁⟩ := hus.cons
  refine (ends_next_seen hc).bind ?_
  rintro u c₁ ⟨rfl, h₁, -⟩
  rw [ends_bind]
  refine (ih (groups' u.span) slot' items ts (hitems _) ((Nat.le_succ _).trans hdepth)
    (Nat.lt_of_succ_lt_succ hfuel) c₁ us rest hus₁ h₁ hrest).mono ?_
  rintro read c₂ ⟨hread, h₂⟩
  exact ⟨View.items_cons (hmake _ _ (View.span_eq hu)) hread, h₂⟩

theorem rereads_signed {m : Token} {items : List (Item Operand)}
    (ih : ∀ fuel' ≤ fuel, RereadsItems v text nested ends depth fuel') (hm : m.kind = .sub)
    (hk : t.kind = .int) (hj : m.span.stop = t.span.start)
    (hsize : InInt64 (-t.magnitude)) (hslot : slot ≠ .operator)
    (hitems : ItemsYield ends groups.length .operator items ts)
    (hdepth : (m :: t :: ts).length ≤ depth) (hfuel : (m :: t :: ts).length < fuel + 1) :
    Rereads v text (itemsOf nested ends (fuel + 1) groups slot) v.items (Stops ends)
      (.operand (.number ⟨.ofInt (-t.magnitude), m.span.through t.span⟩) :: items)
      (m :: t :: ts) := by
  intro c us rest hus hc hrest
  obtain ⟨m', us₁, rfl, hm', hus₁⟩ := hus.cons
  obtain ⟨t', us₂, rfl, ht', hus₂⟩ := hus₁.cons
  simp only [List.length_cons] at hdepth hfuel
  have hends : EndsOperand? (us₂ ++ rest) := endsOperand_items hitems hus₂ hrest
  have hkm : m'.kind = .sub := (View.kind_eq hm').trans hm
  have hkt : t'.kind = .int := (View.kind_eq ht').trans hk
  rw [← View.magnitude_eq ht'] at hsize ⊢
  by_cases hj' : m'.span.stop = t'.span.start
  · refine ends_itemsOf_number (some m') hc hkt ?_ hends hslot
      (fun hover => absurd hsize hover) fun c' _ h' => ?_
    · rintro _ ⟨⟩
      exact ⟨hkm, hj'⟩
    refine (ih fuel (Nat.le_refl _) _ _ _ _ hitems (by omega) (by omega) c' us₂ rest hus₂ h'
      hrest).mono ?_
    rintro read c'' ⟨hread, h''⟩
    refine ⟨View.items_cons ?_ hread, h''⟩
    simp only [View.item, recastItem, recastOperand, Located.relocate, literal,
      Span.relocate_through, View.span_eq hm', View.span_eq ht']
  · obtain rfl : v = .lax := hus.lax_or_eq.resolve_right fun heq => by
      obtain ⟨hm₀, ht₀, -⟩ : m' = m ∧ t' = t ∧ us₂ = ts := by simpa using heq
      exact hj' (by rw [hm₀, ht₀, hj])
    have hmove : Move.ofCursor ends groups slot c = .unary .neg := by
      refine ofCursor_sign hc hkm hslot fun _ hjoins => ?_
      obtain ⟨u, ⟨⟩, -, hstop⟩ := hjoins
      exact hj' hstop
    obtain _ | fuel := fuel
    · omega
    unfold itemsOf
    rw [ends_bind, ends_get, hmove]
    refine ends_item hc fun c₁ h₁ htakes => ?_
    refine ends_itemsOf_number none h₁ hkt (by simp) hends (by simp)
      (fun hover => ⟨rfl, detachedOverflow hc htakes hkm hkt hj' hover hsize⟩)
      fun c₂ hsize₂ h₂ => ?_
    refine (ih fuel (Nat.le_succ _) _ _ _ _ hitems (by omega) (by omega) c₂ us₂ rest hus₂ h₂
      hrest).mono ?_
    rintro read c₃ ⟨hread, h₃⟩
    exact ⟨View.items_sign (nonneg_magnitude hsize₂) (Int64.ofInt_neg _) _ _ _ hread, h₃⟩

theorem rereads_unary {op : UnaryOp} {items : List (Item Operand)}
    (ih : ∀ fuel' ≤ fuel, RereadsItems v text nested ends depth fuel') (hk : t.kind = op.kind)
    (hj : op = .neg → ¬ t.Joins .int ts) (hslot : slot ≠ .operator)
    (hitems : ItemsYield ends groups.length .operand items ts)
    (hdepth : (t :: ts).length ≤ depth) (hfuel : (t :: ts).length < fuel + 1) :
    Rereads v text (itemsOf nested ends (fuel + 1) groups slot) v.items (Stops ends)
      (.unary ⟨op, t.span⟩ :: items) (t :: ts) := by
  intro c us rest hus hc hrest
  obtain ⟨t', us₁, rfl, ht', hus₁⟩ := hus.cons
  simp only [List.length_cons] at hdepth hfuel
  have hkt : t'.kind = op.kind := (View.kind_eq ht').trans hk
  by_cases hjoins : op = .neg ∧ t'.Joins .int (us₁ ++ rest)
  · obtain ⟨rfl, u, hu, hku, hstop⟩ := hjoins
    obtain _ | ⟨u', us₂⟩ := us₁
    · exact absurd (stops_endsOperand hrest u hu) (by simp [hku, TokenKind.startsOperand])
    obtain rfl : u' = u := Option.some.inj hu
    obtain ⟨w, ts, rfl, hw, hus₂⟩ := View.Alike.cons (Eq.symm hus₁)
    obtain rfl : v = .lax := hus.lax_or_eq.resolve_right fun heq => by
      obtain ⟨ht₀, hu₀, -⟩ : t' = t ∧ u' = w ∧ us₂ = ts := by simpa using heq
      exact hj rfl ⟨w, rfl, hu₀ ▸ hku, ht₀ ▸ hu₀ ▸ hstop⟩
    obtain ⟨hsize, items, hrest', rfl⟩ :=
      exists_number_of_digits hitems ((View.kind_eq hw).trans hku)
    rw [View.magnitude_eq hw] at hsize ⊢
    have hends : EndsOperand? (us₂ ++ rest) := endsOperand_items hrest' (Eq.symm hus₂) hrest
    refine ends_itemsOf_number (some t') hc hku ?_ hends hslot
      (fun hover => absurd (inInt64_neg hsize) hover) fun c₁ _ h₁ => ?_
    · rintro _ ⟨⟩
      exact ⟨hkt, hstop⟩
    simp only [List.length_cons] at hdepth hfuel
    refine (ih fuel (Nat.le_refl _) _ _ _ _ hrest' (by omega) (by omega) c₁ us₂ rest
      (Eq.symm hus₂) h₁ hrest).mono ?_
    rintro read c₂ ⟨hread, h₂⟩
    exact ⟨(View.items_sign (nonneg_magnitude hsize) (Int64.ofInt_neg _) _ _ _ hread.symm).symm, h₂⟩
  · have hmove : Move.ofCursor ends groups slot c = .unary op :=
      ofCursor_sign hc hkt hslot fun hneg hj' => hjoins ⟨hneg, hj'⟩
    unfold itemsOf
    rw [ends_bind, ends_get, hmove]
    exact ends_item_rereads (.unary ⟨op, ·⟩) (fun _ => groups) (ih fuel (Nat.le_refl _))
      (fun s s' hs => congrArg (Item.unary ⟨op, ·⟩) hs) (fun _ => hitems) hdepth hfuel hus hc hrest

/-! ### One item and those after it -/

theorem rereads_noItems :
    Rereads v text (itemsOf nested ends (fuel + 1) [] slot) v.items (Stops ends) [] [] := by
  intro c us rest hus hc hrest
  obtain rfl := hus.nil
  unfold itemsOf
  rw [ends_bind, ends_get, ofCursor_stops hc hrest]
  exact ⟨rfl, hc⟩

section
variable {items : List (Item Operand)} (ih : RereadsItems v text nested ends depth fuel)
include ih

theorem rereads_digits (hk : t.kind = .int) (hsize : InInt64 t.magnitude) (hslot : slot ≠ .operator)
    (hitems : ItemsYield ends groups.length .operator items ts)
    (hdepth : (t :: ts).length ≤ depth) (hfuel : (t :: ts).length < fuel + 1) :
    Rereads v text (itemsOf nested ends (fuel + 1) groups slot) v.items (Stops ends)
      (.operand (.number ⟨.ofInt t.magnitude, t.span⟩) :: items) (t :: ts) := by
  intro c us rest hus hc hrest
  obtain ⟨t', us, rfl, ht, hus₁⟩ := hus.cons
  rw [← View.magnitude_eq ht] at hsize ⊢
  refine ends_itemsOf_number none hc ((View.kind_eq ht).trans hk) (by simp)
    (endsOperand_items hitems hus₁ hrest) hslot (fun hover => absurd hsize hover) fun c₁ _ h₁ => ?_
  refine (ih _ _ _ _ hitems ((Nat.le_succ _).trans hdepth) (Nat.lt_of_succ_lt_succ hfuel) c₁ us rest
    hus₁ h₁ hrest).mono ?_
  rintro read c₂ ⟨hread, h₂⟩
  refine ⟨View.items_cons ?_ hread, h₂⟩
  simp only [View.item, recastItem, recastOperand, Located.relocate, literal, View.span_eq ht]

theorem rereads_operand (hn : RereadsBelow v text depth nested) {x : Operand} {ts' : List Token}
    (hx : OperandYields x ts) (hne : ∀ n, x ≠ .number n)
    (hflat : ends = .element → ∀ m, x ≠ .matrix m) (hslot : slot ≠ .operator)
    (hitems : ItemsYield ends groups.length .operator items ts')
    (hdepth : (ts ++ ts').length ≤ depth) (hfuel : (ts ++ ts').length < fuel + 1) :
    Rereads v text (itemsOf nested ends (fuel + 1) groups slot) v.items (Stops ends)
      (.operand x :: items) (ts ++ ts') := by
  intro c us rest hus hc hrest
  obtain ⟨us₁, us₂, rfl, hus₁, hus₂⟩ := hus.append
  rw [List.append_assoc] at hc
  rw [List.length_append] at hdepth hfuel
  have hpos : 0 < ts.length := by
    obtain ⟨t, ts, rfl, -⟩ := hx.exists_head
    exact Nat.succ_pos _
  refine ends_itemsOf_operand (ofCursor_operandYields hx hne hflat hus₁ hc hslot)
    (rereads_operandOf hn hx hne (by omega) c us₁ _ hus₁ hc
      (endsOperand_items hitems hus₂ hrest)) ?_
  rintro y c₁ ⟨hy, h₁⟩
  refine (ih _ _ _ _ hitems (by omega) (by omega) c₁ us₂ rest hus₂ h₁ hrest).mono ?_
  rintro read c₂ ⟨hread, h₂⟩
  exact ⟨View.items_cons (congrArg Item.operand hy) hread, h₂⟩

theorem rereads_opening (hk : t.kind = .openParen) (hslot : slot ≠ .operator)
    (hitems : ItemsYield ends (groups.length + 1) .first items ts)
    (hdepth : (t :: ts).length ≤ depth) (hfuel : (t :: ts).length < fuel + 1) :
    Rereads v text (itemsOf nested ends (fuel + 1) groups slot) v.items (Stops ends)
      (.opening t.span :: items) (t :: ts) := by
  intro c us rest hus hc hrest
  obtain ⟨t', us, rfl, ht, -⟩ := hus.cons
  have hmove : Move.ofCursor ends groups slot c = .opening := by
    rw [List.cons_append] at hc
    rw [ofCursor_seen hc]
    simp [Move.atToken, View.kind_eq ht, hk, hslot]
  unfold itemsOf
  rw [ends_bind, ends_get, hmove]
  exact ends_item_rereads .opening (· :: groups) ih (fun s s' hs => congrArg Item.opening hs)
    (fun _ => hitems) hdepth hfuel hus hc hrest

theorem rereads_closing {group : Span} (hk : t.kind = .closeParen) (hslot : slot ≠ .first)
    (hitems : ItemsYield ends groups.length .operator items ts)
    (hdepth : (t :: ts).length ≤ depth) (hfuel : (t :: ts).length < fuel + 1) :
    Rereads v text (itemsOf nested ends (fuel + 1) (group :: groups) slot) v.items (Stops ends)
      (.closing t.span :: items) (t :: ts) := by
  intro c us rest hus hc hrest
  obtain ⟨t', us, rfl, ht, -⟩ := hus.cons
  have hmove : Move.ofCursor ends (group :: groups) slot c = .closing := by
    rw [List.cons_append] at hc
    rw [ofCursor_seen hc]
    simp [Move.atToken, View.kind_eq ht, hk, hslot]
  unfold itemsOf
  rw [ends_bind, ends_get, hmove]
  exact ends_item_rereads .closing (fun _ => groups) ih (fun s s' hs => congrArg Item.closing hs)
    (fun _ => hitems) hdepth hfuel hus hc hrest

theorem rereads_binary {op : BinaryOp} (hk : t.kind = op.kind)
    (hslot : op.looksUnary = true → slot = .operator)
    (hitems : ItemsYield ends groups.length .operand items ts)
    (hdepth : (t :: ts).length ≤ depth) (hfuel : (t :: ts).length < fuel + 1) :
    Rereads v text (itemsOf nested ends (fuel + 1) groups slot) v.items (Stops ends)
      (.binary ⟨op, t.span⟩ :: items) (t :: ts) := by
  intro c us rest hus hc hrest
  obtain ⟨t', us, rfl, ht, -⟩ := hus.cons
  have hmove : Move.ofCursor ends groups slot c = .binary op := by
    rw [List.cons_append] at hc
    rw [ofCursor_seen hc]
    cases op <;> simp_all [Move.atToken, View.kind_eq ht, BinaryOp.kind, BinaryOp.looksUnary]
  unfold itemsOf
  rw [ends_bind, ends_get, hmove]
  exact ends_item_rereads (.binary ⟨op, ·⟩) (fun _ => groups) ih
    (fun s s' hs => congrArg (Item.binary ⟨op, ·⟩) hs) (fun _ => hitems) hdepth hfuel hus hc hrest

end

/-! ### All items -/

theorem rereads_itemsOf (hn : RereadsBelow v text depth nested) (fuel : Nat) :
    RereadsItems v text nested ends depth fuel := by
  induction fuel using Nat.strong_induction_on with
  | _ fuel ih =>
  intro groups slot items ts h hdepth hfuel
  obtain _ | fuel := fuel
  · cases hfuel
  -- a sign that is not joined to its number takes two items, so the fuel may drop by two
  have ih : ∀ fuel' ≤ fuel, RereadsItems v text nested ends depth fuel' :=
    fun fuel' hle => ih fuel' (Nat.lt_succ_of_le hle)
  have hrest : RereadsItems v text nested ends depth fuel := ih fuel (Nat.le_refl _)
  generalize hgroups : groups.length = n at h
  cases h with
  | nil =>
    obtain rfl := List.length_eq_zero_iff.mp hgroups
    exact rereads_noItems
  | @operand _ _ _ x items ts₁ ts₂ hslot hflat hx hitems =>
    subst hgroups
    by_cases hnumber : ∃ n, x = .number n
    · obtain ⟨n, rfl⟩ := hnumber
      cases hx with
      | number hx =>
      cases hx with
      | plain hk hsize => exact rereads_digits hrest hk hsize hslot hitems hdepth hfuel
      | signed hm hk hj hsize =>
        exact rereads_signed ih hm hk hj hsize hslot hitems hdepth hfuel
    · have hne : ∀ n, x ≠ .number n := fun n hn => hnumber ⟨n, hn⟩
      exact rereads_operand hrest hn hx hne hflat hslot hitems hdepth hfuel
  | opening hk hslot hitems =>
    subst hgroups
    exact rereads_opening hrest hk hslot hitems hdepth hfuel
  | closing hk hslot hitems =>
    obtain ⟨group, groups, rfl⟩ := List.exists_cons_of_length_eq_add_one hgroups
    obtain rfl := Nat.succ.inj hgroups
    exact rereads_closing hrest hk hslot hitems hdepth hfuel
  | unary hk hslot hj hitems =>
    subst hgroups
    exact rereads_unary ih hk hj hslot hitems hdepth hfuel
  | binary hk hslot hitems =>
    subst hgroups
    exact rereads_binary hrest hk hslot hitems hdepth hfuel

end Parse

end MatrixScript
