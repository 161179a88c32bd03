import MatrixScript.Proofs.Views

/-!
# Reading operands again

Tokens like those of a number, a call or a matrix are read as something that looks the same, if
nested expressions are.
-/

namespace MatrixScript

variable {text : String}

/-! ## Tokens that follow -/

def Followed (P : TokenKind → Prop) (ts : List Token) : Prop := ∀ t ∈ ts.head?, P t.kind

theorem Followed.mono {P Q : TokenKind → Prop} {ts : List Token} (h : Followed P ts)
    (hPQ : ∀ kind, P kind → Q kind) : Followed Q ts := fun t ht => hPQ _ (h t ht)

abbrev EndsOperand? (ts : List Token) : Prop := Followed (·.startsOperand = false) ts

abbrev Stops (ends : Ending) (ts : List Token) : Prop := Followed (ends.stopsAt · = true) ts

namespace Parse

open Cursor

variable {α β γ : Type} {E : Fault → Prop} {c : Cursor} {kind : TokenKind} {t : Token}
  {ts rest : List Token}

theorem stops_endsOperand {ends : Ending} (h : Stops ends ts) : EndsOperand? ts :=
  h.mono fun kind => by cases ends <;> cases kind <;> simp [Ending.stopsAt, TokenKind.startsOperand]

/-! ## Basic steps -/

theorem ends_token_seen (h : c.Sees text (t :: ts)) (hk : t.kind = kind) :
    Ends E (token kind) c fun u c' => u = t ∧ c'.Sees text ts := by
  have hpeek : c.peekKind? = some kind := by rw [h.peekKind?, ← hk]; rfl
  refine (ends_token fun hne => absurd hpeek hne).mono ?_
  rintro u c' ⟨-, hu⟩
  obtain ⟨us, hus, h'⟩ := h.takes hu
  obtain ⟨rfl, rfl⟩ := List.cons.inj hus
  exact ⟨rfl, h'⟩

theorem ends_next_seen (h : c.Sees text (t :: ts)) :
    Ends E next c fun u c' => u = t ∧ c'.Sees text ts ∧ Takes c t c' := by
  refine (ends_next fun hnone => ?_).mono ?_
  · rw [h.peek?] at hnone
    cases hnone
  · intro u c' hu
    obtain ⟨us, hus, h'⟩ := h.takes hu
    obtain ⟨rfl, rfl⟩ := List.cons.inj hus
    exact ⟨rfl, h', hu⟩

theorem ends_accept_seen (h : c.Sees text (t :: ts)) (hk : t.kind = kind) :
    Ends E (accept kind) c fun u c' => u = some t ∧ c'.Sees text ts := by
  refine ends_accept.mono ?_
  rintro u c' (⟨-, -, hne⟩ | ⟨u, rfl, -, hu⟩)
  · exact absurd (by rw [h.peekKind?, ← hk]; rfl) hne
  · obtain ⟨us, hus, h'⟩ := h.takes hu
    obtain ⟨rfl, rfl⟩ := List.cons.inj hus
    exact ⟨rfl, h'⟩

theorem ends_accept_unseen (h : c.Sees text ts) (hk : Followed (· ≠ kind) ts) :
    Ends E (accept kind) c fun u c' => u = none ∧ c'.Sees text ts := by
  refine ends_accept.mono ?_
  rintro u c' (⟨rfl, rfl, -⟩ | ⟨u, -, hpeek, -⟩)
  · exact ⟨rfl, h⟩
  · rw [h.peekKind?] at hpeek
    obtain ⟨t, ht, hkind⟩ := Option.map_eq_some_iff.mp hpeek
    exact absurd hkind (hk t ht)

/-! ## Numbers -/

theorem ends_numeral (sign : Option Token) (h : c.Sees text (sign.toList ++ t :: rest))
    (hk : t.kind = .int) (hsign : ∀ m ∈ sign, m.kind = .sub ∧ m.span.stop = t.span.start)
    (hrest : EndsOperand? rest)
    (hover : ¬ InInt64 (literal sign t).1 → E ⟨.integerOverflow, [(literal sign t).2]⟩) :
    Ends E numeral c fun n c' => InInt64 (literal sign t).1 ∧
      n = ⟨.ofInt (literal sign t).1, (literal sign t).2⟩ ∧ c'.Sees text rest := by
  have haccept : Ends E (acceptJoined .sub .int) c fun s c₁ =>
      s = sign ∧ c₁.Sees text (t :: rest) := by
    refine ends_acceptJoined.mono ?_
    cases sign with
    | none =>
      rintro s c₁ (⟨rfl, rfl, -⟩ | ⟨m, -, hj, -⟩)
      · exact ⟨rfl, h⟩
      · exact absurd ((h.peekJoined_iff rfl).mp hj).1 (by simp [hk])
    | some m =>
      obtain ⟨hm, hstop⟩ := hsign m rfl
      rintro s c₁ (⟨-, -, hj⟩ | ⟨m', rfl, -, hm'⟩)
      · exact absurd ((h.peekJoined_iff rfl).mpr ⟨hm, t, rfl, hk, hstop⟩) hj
      · obtain ⟨us, hus, h'⟩ := h.takes hm'
        obtain ⟨rfl, rfl⟩ := List.cons.inj hus
        exact ⟨rfl, h'⟩
  refine ends_numeral_of (haccept.mono ?_)
  rintro sign c₁ ⟨rfl, h₁⟩
  refine (ends_token_seen h₁ hk).mono ?_
  rintro t c₂ ⟨rfl, h₂⟩
  refine ⟨fun u hcurrent hname => ?_, hover, fun hsize => ⟨hsize, rfl, h₂⟩⟩
  have hu := h₂.current hcurrent (by rw [Token.isBlank, hname]; rfl)
  exact absurd (hrest u hu) (by simp [hname, TokenKind.startsOperand])

/-! ## Lists -/

/-- Wherever there are tokens like `ts`, the step reads them as something that looks like `x`. -/
def Rereads (v : View) (text : String) (p : Parse α) (look : α → γ) (follows : List Token → Prop)
    (x : α) (ts : List Token) : Prop :=
  ∀ c us rest, v.Alike us ts → c.Sees text (us ++ rest) → follows rest →
    Ends (v.Excuses text) p c fun y c' => look y = look x ∧ c'.Sees text rest

/-- Where the places of tokens count as well, the tokens of `x` are read as `x` itself. -/
theorem Rereads.exists_eq {p : Parse α} {look : α → γ} {follows : List Token → Prop} {x : α}
    {c : Cursor} {ts rest : List Token} (h : Rereads .exact text p look follows x ts)
    (hlook : ∀ y, look y = look x → y = x) (hc : c.Sees text (ts ++ rest))
    (hrest : follows rest) : ∃ d, p c = .ok x d ∧ d.Sees text rest := by
  have hread := h c ts rest rfl hc hrest
  unfold Ends at hread
  split at hread
  · next y d hp =>
    obtain ⟨hy, hd⟩ := hread
    exact ⟨d, hlook y hy ▸ hp, hd⟩
  · cases hread.1

abbrev Delimited (closing : TokenKind) (ts : List Token) : Prop :=
  Followed (fun kind => kind = closing ∨ kind = .comma) ts

def LeadsOff (closing : TokenKind) (ts : List Token) : Prop :=
  ∃ t us, ts = t :: us ∧ t.kind ≠ closing

end Parse

theorem Listed.mono {β : Type} {R S : β → List Token → Prop} {ys : List β} {ts : List Token}
    (h : Listed R ys ts) (hRS : ∀ y us, us.length ≤ ts.length → R y us → S y us) :
    Listed S ys ts := by
  induction h with
  | nil => exact .nil
  | singleton hy => exact .singleton (hRS _ _ (Nat.le_refl _) hy)
  | cons hy hc _ ih =>
    refine .cons (hRS _ _ (by simp) hy) hc (ih fun y us hle => hRS y us ?_)
    simp only [List.length_append, List.length_cons]
    omega

namespace Parse

section
variable {v : View} {item : Parse α} {look : α → γ} {closing : TokenKind} {ys : List α}
  {us : List Token}

abbrev RereadsList (v : View) (text : String) (item : Parse α) (look : α → γ)
    (closing : TokenKind) : List α → List Token → Prop :=
  Listed fun y us => LeadsOff closing us ∧ Rereads v text item look (Delimited closing) y us

theorem length_le_of_leadsOff (h : RereadsList v text item look closing ys ts) :
    ys.length ≤ ts.length := by
  induction h with
  | nil => exact Nat.le_refl _
  | singleton hy =>
    obtain ⟨⟨t, us, rfl, -⟩, -⟩ := hy
    simp
  | cons hy _ _ ih =>
    simp only [List.length_append, List.length_cons] at ih ⊢
    omega

theorem ends_commaSeparated (h : RereadsList v text item look closing ys ts) (hne : ys ≠ [])
    (hclosing : closing ≠ .comma) {fuel : Nat} (hfuel : ys.length ≤ fuel)
    (hus : v.Alike us ts) (hc : c.Sees text (us ++ t :: rest)) (ht : t.kind = closing) :
    Ends (v.Excuses text) (commaSeparated item fuel) c fun xs c' =>
      xs.map look = ys.map look ∧ c'.Sees text (t :: rest) := by
  induction h generalizing c fuel us with
  | nil => exact absurd rfl hne
  | singleton hy =>
    obtain _ | fuel := fuel
    · cases hfuel
    unfold commaSeparated
    refine (hy.2 c us _ hus hc fun u hu => ?_).bind ?_
    · cases hu
      exact .inl ht
    rintro x c₁ ⟨hx, h₁⟩
    refine (ends_accept_unseen h₁ fun u hu => ?_).bind ?_
    · cases hu
      rwa [ht]
    rintro _ c₂ ⟨rfl, h₂⟩
    exact ⟨by simp [hx], h₂⟩
  | @cons y z ys ts ts' comma hy hcomma hrest ih =>
    obtain _ | fuel := fuel
    · cases hfuel
    unfold commaSeparated
    obtain ⟨us₁, us₂, rfl, hus₁, hus₂⟩ := hus.append
    obtain ⟨comma', us₂, rfl, hcomma', hus₂⟩ := hus₂.cons
    have hkind : comma'.kind = .comma := (View.kind_eq hcomma').trans hcomma
    rw [List.append_assoc, List.cons_append] at hc
    refine (hy.2 c us₁ _ hus₁ hc fun u hu => ?_).bind ?_
    · cases hu
      exact .inr hkind
    rintro x c₁ ⟨hx, h₁⟩
    refine (ends_accept_seen h₁ hkind).bind ?_
    rintro _ c₂ ⟨rfl, h₂⟩
    rw [Option.isSome_some, if_pos rfl]
    refine (ih (by simp) (Nat.le_of_succ_le_succ hfuel) hus₂ h₂).bind ?_
    rintro xs c₃ ⟨hxs, h₃⟩
    exact ⟨by rw [List.map_cons, hx, hxs]; rfl, h₃⟩

theorem leadsOff_list (h : RereadsList v text item look closing ys ts) (hne : ys ≠ []) :
    LeadsOff closing ts := by
  cases h with
  | nil => exact absurd rfl hne
  | singleton hy => exact hy.1
  | cons hy =>
    obtain ⟨t, us, rfl, hk⟩ := hy.1
    exact ⟨t, _, rfl, hk⟩

theorem ends_closed {δ : Type} (h : RereadsList v text item look closing ys ts)
    (hclosing : closing ≠ .comma) (hus : v.Alike us ts) (hc : c.Sees text (us ++ t :: rest))
    (ht : t.kind = closing) {empty : Token → Parse δ} {full : List α → Token → Parse δ}
    {unclosed : List α → Parse δ} {Q : δ → Cursor → Prop} (hempty : ∀ t, empty t = full [] t)
    (hfull : ∀ xs c', xs.map look = ys.map look → c'.Sees text rest →
      Ends (v.Excuses text) (full xs t) c' Q) :
    Ends (v.Excuses text) (do
      match ← accept closing with
      | some t => empty t
      | none =>
        let xs ← commaSeparated item (← bound)
        match ← accept closing with
        | some t => full xs t
        | none => unclosed xs) c Q := by
  by_cases hne : ys = []
  · subst hne
    cases h
    obtain rfl := hus.nil
    refine (ends_accept_seen hc ht).bind ?_
    rintro _ c₁ ⟨rfl, h₁⟩
    dsimp only
    rw [hempty]
    exact hfull [] c₁ rfl h₁
  · obtain ⟨u, us', hts, hu⟩ := leadsOff_list h hne
    refine (ends_accept_unseen hc fun w hw => ?_).bind ?_
    · obtain ⟨w', us', rfl, hw', -⟩ := (hts ▸ hus).cons
      cases hw
      rwa [View.kind_eq hw']
    rintro _ c₁ ⟨rfl, h₁⟩
    dsimp only
    rw [ends_bind, ends_bound]
    have hfuel : ys.length ≤ c₁.ahead.length + 1 := by
      have hlength := h₁.length_le
      rw [List.length_append, hus.length_eq] at hlength
      exact (length_le_of_leadsOff h).trans (by omega)
    refine (ends_commaSeparated h hne hclosing hfuel hus h₁ ht).bind ?_
    rintro xs c₂ ⟨hxs, h₂⟩
    refine (ends_accept_seen h₂ ht).bind ?_
    rintro _ c₃ ⟨rfl, h₃⟩
    exact hfull xs c₃ hxs h₃

theorem rereads_bracketed {δ : Type} {lookAll : Bracketed α → δ} {m : Bracketed α}
    (h : BracketedYields (fun y us => LeadsOff .closeSquare us ∧
      Rereads v text item look (Delimited .closeSquare) y us) m ts)
    (hlook : ∀ xs (span : Span), xs.map look = m.items.map look →
      span.relocate v.offset = m.span.relocate v.offset → lookAll ⟨xs, span⟩ = lookAll m) :
    Rereads v text (bracketed item) lookAll (fun _ => True) m ts := by
  intro c us rest hus hc _
  obtain ⟨ho, hclose, hys⟩ := h
  obtain ⟨opening, us, rfl, hopening, hus₁⟩ := hus.cons
  obtain ⟨us, us', rfl, hus₂, hus₃⟩ := hus₁.append
  obtain ⟨closing, us', rfl, hclosing, hnil⟩ := hus₃.cons
  obtain rfl := hnil.nil
  rw [List.cons_append, List.append_assoc] at hc
  unfold bracketed
  refine (ends_token_seen hc ((View.kind_eq hopening).trans ho)).bind ?_
  rintro opening c₁ ⟨rfl, h₁⟩
  refine ends_closed hys (by simp) hus₂ h₁ ((View.kind_eq hclosing).trans hclose)
    (fun t => rfl) fun xs c₂ hxs h₂ => ⟨hlook xs _ hxs ?_, h₂⟩
  rw [Span.relocate_through, Span.relocate_through, View.span_eq hopening, View.span_eq hclosing]

end

end Parse

theorem BracketedYields.mono {β : Type} {R S : β → List Token → Prop} {m : Bracketed β}
    {ts : List Token} (h : BracketedYields R m ts)
    (hRS : ∀ y us, us.length < ts.length → R y us → S y us) : BracketedYields S m ts := by
  obtain ⟨ho, hc, hys⟩ := h
  refine .mk ho hc (hys.mono fun y us hle => hRS y us ?_)
  simp only [List.length_cons, List.length_append]
  omega

/-! ## First tokens -/

theorem OperandYields.exists_head {x : Operand} {ts : List Token} (h : OperandYields x ts) :
    ∃ t us, ts = t :: us ∧
      (t.kind = .int ∨ t.kind = .sub ∨ t.kind = .name ∨ t.kind = .openSquare) := by
  cases h with
  | number h =>
    cases h with
    | plain hk => exact ⟨_, _, rfl, .inl hk⟩
    | signed hm => exact ⟨_, _, rfl, .inr (.inl hm)⟩
  | symbol hk => exact ⟨_, _, rfl, .inr (.inr (.inl hk))⟩
  | call h =>
    cases h with
    | mk hname => exact ⟨_, _, rfl, .inr (.inr (.inl hname))⟩
  | matrix h =>
    cases h with
    | mk ho => exact ⟨_, _, rfl, .inr (.inr (.inr ho))⟩

theorem ExpressionYields.leadsOff {ends : Ending} {e : Expression} {ts : List Token}
    (h : ExpressionYields ends e ts) {closing : TokenKind}
    (hclosing : closing = .closeParen ∨ closing = .closeSquare) : Parse.LeadsOff closing ts := by
  obtain ⟨h⟩ := h
  cases h with
  | operand _ _ hx =>
    obtain ⟨t, us, rfl, hk⟩ := hx.exists_head
    exact ⟨t, _, rfl, by grind⟩
  | opening hk => exact ⟨_, _, rfl, by grind⟩
  | @unary _ _ _ op t _ _ hk => exact ⟨_, _, rfl, by cases op <;> grind [UnaryOp.kind]⟩
  | @binary _ _ _ op t _ _ hk => exact ⟨_, _, rfl, by cases op <;> grind [BinaryOp.kind]⟩

theorem BracketedYields.exists_head {β : Type} {R : β → List Token → Prop} {m : Bracketed β}
    {ts : List Token} (h : BracketedYields R m ts) :
    ∃ t us, ts = t :: us ∧ t.kind = .openSquare := by
  obtain ⟨ho, -, -⟩ := h
  exact ⟨_, _, rfl, ho⟩

namespace Parse

open Cursor

variable {α β γ : Type} {E : Fault → Prop} {c : Cursor} {t : Token} {ts rest : List Token}

/-! ## Operands -/

section
variable {v : View} {nested : Ending → Parse Expression} {depth : Nat}

def RereadsBelow (v : View) (text : String) (depth : Nat) (nested : Ending → Parse Expression) :
    Prop :=
  ∀ ends e us, ExpressionYields ends e us → us.length < depth →
    Rereads v text (nested ends) v.expression (Stops ends) e us

theorem RereadsBelow.delimited (hn : RereadsBelow v text depth nested) {ends : Ending}
    {closing : TokenKind} (hclosing : closing = .closeParen ∨ closing = .closeSquare)
    (hstops : ends.stopsAt closing = true ∧ ends.stopsAt .comma = true) {e : Expression}
    {us : List Token} (hlength : us.length < depth) (h : ExpressionYields ends e us) :
    LeadsOff closing us ∧
      Rereads v text (nested ends) v.expression (Delimited closing) e us := by
  refine ⟨h.leadsOff hclosing, fun c us rest hus hc hrest => ?_⟩
  refine hn ends e _ h hlength c us rest hus hc (hrest.mono ?_)
  rintro kind (rfl | rfl)
  · exact hstops.1
  · exact hstops.2

theorem rereads_callOf (hn : RereadsBelow v text depth nested) {x : Call} {name name' : Token}
    (h : CallYields x (name :: ts)) (hname : v.token name' = v.token name)
    (hlength : ts.length ≤ depth) :
    Rereads v text (callOf nested ⟨name'.lexeme, name'.span⟩) v.call (fun _ => True) x ts := by
  intro c us rest hus hc _
  cases h with
  | @mk _ opening closing args ts _ ho hclose hargs =>
  obtain ⟨opening', us, rfl, hopening, hus₁⟩ := hus.cons
  obtain ⟨us, us', rfl, hus₂, hus₃⟩ := hus₁.append
  obtain ⟨closing', us', rfl, hclosing, hnil⟩ := hus₃.cons
  obtain rfl := hnil.nil
  rw [List.cons_append, List.append_assoc] at hc
  simp only [List.length_cons, List.length_append] at hlength
  unfold callOf
  refine (ends_token_seen hc ((View.kind_eq hopening).trans ho)).bind ?_
  rintro opening' c₁ ⟨rfl, h₁⟩
  have hlist := hargs.mono fun e us hle =>
    hn.delimited (.inl rfl) ⟨rfl, rfl⟩ (by omega : us.length < depth)
  refine ends_closed hlist (by simp) hus₂ h₁ ((View.kind_eq hclosing).trans hclose)
    (fun t => rfl) fun xs c₂ hxs h₂ => ⟨?_, h₂⟩
  simp only [View.call, recastCall_eq, hxs, Located.relocate, Span.relocate_through,
    View.lexeme_eq hname, View.span_eq hname, View.span_eq hopening, View.span_eq hclosing]

theorem rereads_rowOf (hn : RereadsBelow v text depth nested) {row : Row} (h : RowYields row ts)
    (hlength : ts.length ≤ depth) :
    Rereads v text (rowOf nested) v.row (fun _ => True) row ts := by
  intro c us rest hus hc hrest
  obtain ⟨t, ts', hts, hk⟩ := h.exists_head
  obtain ⟨u, us', hus', hu, -⟩ := (hts ▸ hus).cons
  have hpeek : c.peekKind? = some .openSquare := by
    rw [hc.peekKind?, hus', ← hk, ← View.kind_eq hu]
    rfl
  unfold rowOf
  rw [ends_attempt, ends_bind, ends_peekKind, if_pos hpeek]
  have hlist := h.mono fun e us hlt =>
    hn.delimited (.inr rfl) ⟨rfl, rfl⟩ (by omega : us.length < depth)
  refine rereads_bracketed hlist (fun xs span hxs hspan => ?_) c us rest hus hc hrest
  obtain ⟨elements, span'⟩ := row
  simp only [View.row, recastRow, recastAll_eq_map]
  rw [hxs, hspan]

theorem rereads_matrixOf (hn : RereadsBelow v text depth nested) {m : MatrixLiteral}
    (h : MatrixYields m ts) (hlength : ts.length ≤ depth) :
    Rereads v text (matrixOf nested) v.matrix (fun _ => True) m ts := by
  intro c us rest hus hc hrest
  unfold matrixOf
  rw [ends_attempt]
  have hlist : BracketedYields (fun row us => LeadsOff .closeSquare us ∧
      Rereads v text (rowOf nested) v.row (Delimited .closeSquare) row us) m ts := by
    refine h.mono fun row us hlt hrow => ⟨?_, fun c us rest hus hc _ => ?_⟩
    · obtain ⟨t, us, rfl, hk⟩ := hrow.exists_head
      exact ⟨t, us, rfl, by simp [hk]⟩
    · exact rereads_rowOf hn hrow (by omega) c us rest hus hc trivial
  refine rereads_bracketed hlist (fun xs span hxs hspan => ?_) c us rest hus hc hrest
  obtain ⟨rows, span'⟩ := m
  simp only [View.matrix, recastMatrix, recastRows_eq_map]
  rw [hxs, hspan]

theorem rereads_operandOf (hn : RereadsBelow v text depth nested) {x : Operand}
    (h : OperandYields x ts) (hx : ∀ n, x ≠ .number n) (hlength : ts.length ≤ depth) :
    Rereads v text (operandOf nested) v.operand EndsOperand? x ts := by
  intro c us rest hus hc hrest
  unfold operandOf
  rw [ends_bind, ends_peekKind, hc.peekKind?]
  cases h with
  | number h => exact absurd rfl (hx _)
  | @symbol t hk =>
    obtain ⟨t', us, rfl, ht, hnil⟩ := hus.cons
    obtain rfl := hnil.nil
    have hk' : t'.kind = .name := (View.kind_eq ht).trans hk
    rw [List.cons_append, List.head?_cons, Option.map_some, hk']
    unfold name
    dsimp only
    rw [bind_assoc]
    refine (ends_token_seen hc hk').bind ?_
    rintro t' c₁ ⟨rfl, h₁⟩
    rw [pure_bind, ends_bind, ends_peekKind, if_neg]
    · refine ⟨?_, h₁⟩
      simp only [View.operand, recastOperand, Located.relocate, View.lexeme_eq ht, View.span_eq ht]
    · rw [h₁.peekKind?]
      intro hopen
      obtain ⟨u, hu, hkind⟩ := Option.map_eq_some_iff.mp hopen
      exact absurd (hrest u hu) (by simp [hkind, TokenKind.startsOperand])
  | @call x ts h =>
    obtain ⟨name, ts', rfl, hk⟩ : ∃ name ts', ts = name :: ts' ∧ name.kind = .name := by
      cases h with
      | mk hk => exact ⟨_, _, rfl, hk⟩
    obtain ⟨name', us, rfl, hname, hus₁⟩ := hus.cons
    have hk' : name'.kind = .name := (View.kind_eq hname).trans hk
    rw [List.cons_append, List.head?_cons, Option.map_some, hk']
    unfold Parse.name
    dsimp only
    rw [bind_assoc]
    refine (ends_token_seen hc hk').bind ?_
    rintro name' c₁ ⟨rfl, h₁⟩
    rw [pure_bind, ends_bind, ends_peekKind, if_pos, ends_map]
    · refine (rereads_callOf hn h hname ?_ c₁ us rest hus₁ h₁ trivial).mono ?_
      · exact (Nat.le_succ _).trans hlength
      · rintro y c₂ ⟨hy, h₂⟩
        exact ⟨congrArg Operand.call hy, h₂⟩
    · cases h with
      | mk _ ho =>
        obtain ⟨opening, us, rfl, hopening, -⟩ := hus₁.cons
        rw [h₁.peekKind?, ← ho, ← View.kind_eq hopening]
        rfl
  | @matrix m ts h =>
    obtain ⟨t, ts', hts, hk⟩ := h.exists_head
    obtain ⟨t', us', hus', ht, -⟩ := (hts ▸ hus).cons
    rw [hus', List.cons_append, List.head?_cons, Option.map_some, View.kind_eq ht, hk]
    dsimp only
    rw [ends_map]
    refine (rereads_matrixOf hn h hlength c us rest hus hc trivial).mono ?_
    rintro y c₂ ⟨hy, h₂⟩
    exact ⟨congrArg Operand.matrix hy, h₂⟩

end

end Parse

end MatrixScript
