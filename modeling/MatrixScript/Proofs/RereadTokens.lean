import MatrixScript.Proofs.RereadItems

/-!
# Reading tokens again

The tokens that a program yields are read as that program.  Tokens of the same words in other places
are read as one that differs in its spans and in the signs of its numbers only, unless a number has
lost its sign to a blank and is too large without.
-/

namespace MatrixScript

variable {text : String}

namespace Parse

open Cursor

variable {v : View} {E : Fault → Prop} {c : Cursor} {t : Token} {ts rest : List Token}

/-! ## Expressions -/

theorem View.items_ne_nil {items read : List (Item Operand)} (h : v.items read = v.items items)
    (hne : items ≠ []) : read ≠ [] := by
  rintro rfl
  obtain ⟨i, is, rfl⟩ := List.exists_cons_of_ne_nil hne
  cases v with
  | exact => cases h
  | lax => exact attach_ne_nil _ _ h.symm

theorem View.eq_of_items_exact {items read : List (Item Operand)}
    (h : View.exact.items read = View.exact.items items) : read = items := by
  have hitem : View.exact.item = id := funext recastItem_id
  rwa [View.items, View.items, hitem, List.map_id, List.map_id] at h

theorem View.expression_eq {first first' : Item Operand} {items items' : List (Item Operand)}
    (h : v.items (first' :: items') = v.items (first :: items)) :
    v.expression ⟨first' :: items', first'.span.through (items'.getLastD first').span⟩ =
      v.expression ⟨first :: items, first.span.through (items.getLastD first).span⟩ := by
  rw [View.expression, View.expression, recast, recast, recastItems_eq_map, recastItems_eq_map]
  cases v with
  | exact =>
    obtain ⟨rfl, rfl⟩ := List.cons.inj (View.eq_of_items_exact h)
    rfl
  | lax => exact congrArg (Infix.mk · nowhere) h

theorem rereadsBelow_expressionAt (depth : Nat) :
    RereadsBelow v text depth (expressionAt depth) := by
  induction depth with
  | zero => exact fun ends e us _ hlength => absurd hlength (Nat.not_lt_zero _)
  | succ depth ih =>
    intro ends e ts h hlength c us rest hus hc hrest
    obtain @⟨_, first, items, _, h⟩ := h
    unfold expressionAt expressionOf
    rw [ends_bind, ends_bound]
    have hfuel : ts.length < c.ahead.length + 1 := by
      have hle := hc.length_le
      rw [List.length_append, hus.length_eq] at hle
      omega
    refine (rereads_itemsOf ih _ [] .operand _ ts h (Nat.le_of_lt_succ hlength) hfuel c us rest
      hus hc hrest).bind ?_
    rintro read c' ⟨hread, h'⟩
    obtain ⟨first', items', rfl⟩ :=
      List.exists_cons_of_ne_nil (View.items_ne_nil hread (List.cons_ne_nil first items))
    exact ⟨View.expression_eq hread, h'⟩

theorem rereads_expression {ends : Ending} {e : Expression} (h : ExpressionYields ends e ts) :
    Rereads v text (expression ends) v.expression (Stops ends) e ts := by
  intro c us rest hus hc hrest
  have hlength := hc.length_le
  rw [List.length_append, hus.length_eq] at hlength
  unfold expression
  rw [ends_bind, ends_bound]
  exact rereadsBelow_expressionAt _ ends e ts h (by omega) c us rest hus hc hrest

theorem rereadsBelow_expression (depth : Nat) : RereadsBelow v text depth expression :=
  fun _ _ _ h _ => rereads_expression h

/-! ## Statements -/

theorem ends_semicolon_seen (h : c.Sees text (t :: ts)) (hk : t.kind = .semicolon) :
    Ends E semicolon c fun s c' => s = t.span ∧ c'.Sees text ts := by
  unfold semicolon
  refine (ends_accept_seen h hk).bind ?_
  rintro _ c' ⟨rfl, h'⟩
  exact ⟨rfl, h'⟩

theorem rereads_declaration {d : Declaration} (h : DeclarationYields d ts) :
    Rereads v text declaration (fun d => v.statement (.declaration d)) (fun _ => True) d ts := by
  intro c us rest hus hc _
  obtain ⟨hl, hn, ha, hs, hvalue⟩ := h
  obtain ⟨keyword, us, rfl, hkeyword, hus₁⟩ := hus.cons
  obtain ⟨name, us, rfl, hname, hus₂⟩ := hus₁.cons
  obtain ⟨assign, us, rfl, hassign, hus₃⟩ := hus₂.cons
  obtain ⟨us, us', rfl, hus₄, hus₅⟩ := hus₃.append
  obtain ⟨last, us', rfl, hlast, hnil⟩ := hus₅.cons
  obtain rfl := hnil.nil
  rw [List.cons_append, List.cons_append, List.cons_append, List.append_assoc] at hc
  have hks : last.kind = .semicolon := (View.kind_eq hlast).trans hs
  unfold declaration
  rw [ends_attempt]
  refine (ends_token_seen hc ((View.kind_eq hkeyword).trans hl)).bind ?_
  rintro keyword c₁ ⟨rfl, h₁⟩
  refine (ends_accept_seen h₁ ((View.kind_eq hname).trans hn)).bind ?_
  rintro _ c₂ ⟨rfl, h₂⟩
  refine (ends_accept_seen h₂ ((View.kind_eq hassign).trans ha)).bind ?_
  rintro _ c₃ ⟨rfl, h₃⟩
  rw [Option.isSome_some, if_pos rfl]
  refine (rereads_expression hvalue c₃ us _ hus₄ h₃ fun u hu => ?_).bind ?_
  · cases hu
    rw [hks]
    rfl
  rintro value c₄ ⟨hread, h₄⟩
  refine (ends_semicolon_seen h₄ hks).bind ?_
  rintro s c₅ ⟨rfl, h₅⟩
  refine ⟨?_, h₅⟩
  simp only [View.statement, Statement.recast, Located.relocate, Span.relocate_through,
    View.lexeme_eq hname, View.span_eq hname, View.span_eq hkeyword, View.span_eq hlast]
  exact congrArg (fun e => Statement.declaration ⟨_, e, _⟩) hread

theorem rereads_statement {s : Statement} (h : StatementYields s ts) :
    Rereads v text statement v.statement (fun _ => True) s ts := by
  intro c us rest hus hc _
  unfold statement
  rw [ends_attempt, ends_bind, ends_peekKind, hc.peekKind?]
  cases h with
  | @declaration d _ h =>
    obtain ⟨t, ts', rfl, hk⟩ : ∃ t ts', ts = t :: ts' ∧ t.kind = .letKeyword := by
      cases h with
      | mk hl => exact ⟨_, _, rfl, hl⟩
    obtain ⟨u, us, rfl, hu, -⟩ := hus.cons
    rw [List.cons_append, List.head?_cons, Option.map_some, View.kind_eq hu, hk]
    dsimp only
    rw [ends_map]
    exact rereads_declaration h c _ rest hus hc trivial
  | @call x ts last h hs =>
    obtain ⟨name, opening, ts', rfl, hk, ho⟩ : ∃ name opening ts',
        ts = name :: opening :: ts' ∧ name.kind = .name ∧ opening.kind = .openParen := by
      cases h with
      | mk hk ho => exact ⟨_, _, _, rfl, hk, ho⟩
    obtain ⟨us₁, us₂, rfl, hus₁, hus₂⟩ := hus.append
    obtain ⟨last', us₂, rfl, hlast, hnil⟩ := hus₂.cons
    obtain rfl := hnil.nil
    obtain ⟨name', us₁, rfl, hname, hus₃⟩ := hus₁.cons
    have hk' : name'.kind = .name := (View.kind_eq hname).trans hk
    rw [List.append_assoc, List.cons_append] at hc
    rw [List.append_assoc, List.cons_append, List.head?_cons, Option.map_some, hk']
    unfold Parse.name
    dsimp only
    rw [bind_assoc]
    refine (ends_token_seen hc hk').bind ?_
    rintro name' c₁ ⟨rfl, h₁⟩
    rw [pure_bind, ends_bind, ends_peekKind, if_pos]
    · refine (rereads_callOf (rereadsBelow_expression _) h hname (Nat.le_refl _) c₁ us₁ _ hus₃ h₁
        trivial).bind ?_
      rintro y c₂ ⟨hy, h₂⟩
      refine (ends_semicolon_seen h₂ ((View.kind_eq hlast).trans hs)).bind ?_
      rintro _ c₃ ⟨rfl, h₃⟩
      exact ⟨congrArg Statement.call hy, h₃⟩
    · obtain ⟨opening', us, rfl, hopening, -⟩ := hus₃.cons
      rw [h₁.peekKind?, ← ho, ← View.kind_eq hopening]
      rfl

theorem leadsOff_statement {s : Statement} (h : StatementYields s ts) :
    LeadsOff .semicolon ts := by
  cases h with
  | declaration h =>
    cases h with
    | mk hl => exact ⟨_, _, rfl, by simp [hl]⟩
  | call h =>
    cases h with
    | mk hk => exact ⟨_, _, rfl, by simp [hk]⟩

theorem ends_statementsWithin {script : List Statement} {us : List Token} {fuel : Nat}
    (h : ScriptYields script ts) (hfuel : ts.length < fuel) (hus : v.Alike us ts)
    (hc : c.Sees text us) :
    Ends (v.Excuses text) (statementsWithin fuel) c fun read _ =>
      read.map v.statement = script.map v.statement := by
  induction h generalizing c us fuel with
  | nil =>
    obtain rfl := hus.nil
    obtain _ | fuel := fuel
    · cases hfuel
    unfold statementsWithin
    refine (ends_accept_unseen hc fun t ht => by cases ht).bind ?_
    rintro _ c₁ ⟨rfl, h₁⟩
    rw [Option.isSome_none, if_neg Bool.false_ne_true, ends_bind, ends_peekKind, h₁.peekKind?]
    exact ends_pure.mpr rfl
  | skip hs _ ih =>
    obtain ⟨t, us, rfl, ht, hus₁⟩ := hus.cons
    obtain _ | fuel := fuel
    · cases hfuel
    unfold statementsWithin
    refine (ends_accept_seen hc ((View.kind_eq ht).trans hs)).bind ?_
    rintro _ c₁ ⟨rfl, h₁⟩
    rw [Option.isSome_some, if_pos rfl]
    exact ih (Nat.lt_of_succ_lt_succ hfuel) hus₁ h₁
  | @cons s script ts₁ ts₂ hs _ ih =>
    obtain ⟨us₁, us₂, rfl, hus₁, hus₂⟩ := hus.append
    obtain ⟨t, ts₁', rfl, hk⟩ := leadsOff_statement hs
    obtain ⟨u, us₁', rfl, hu, -⟩ := hus₁.cons
    obtain _ | fuel := fuel
    · cases hfuel
    unfold statementsWithin
    refine (ends_accept_unseen hc fun w hw => ?_).bind ?_
    · cases hw
      rwa [View.kind_eq hu]
    rintro _ c₁ ⟨rfl, h₁⟩
    rw [Option.isSome_none, if_neg Bool.false_ne_true, ends_bind, ends_peekKind, h₁.peekKind?]
    refine (rereads_statement hs c₁ _ us₂ hus₁ h₁ trivial).bind ?_
    rintro s' c₂ ⟨hs', h₂⟩
    simp only [List.length_append, List.length_cons] at hfuel
    refine (ih (by omega) hus₂ h₂).bind fun read c₃ hread => ?_
    exact ends_pure.mpr (by rw [List.map_cons, hs', hread, List.map_cons])

end Parse

/-! ## Scripts -/

/-- Tokens like those of a script are read as a script that looks the same, unless there is an
excuse. -/
theorem parseScript_alike {v : View} {script : List Statement} {ts : List Token}
    (h : ScriptYields script ts) (hts : v.Alike (solid (tokenize text)) ts) :
    match parseScript text with
    | .ok read => read.map v.statement = script.map v.statement
    | .error fault => v.Excuses text fault := by
  have hc := Cursor.sees_ofText text
  have hfuel : ts.length < (Cursor.ofText text).ahead.length + 1 := by
    have hle := hc.length_le
    rw [hts.length_eq] at hle
    omega
  have hstatements : Parse.Ends (v.Excuses text) Parse.statements (.ofText text) fun read _ =>
      read.map v.statement = script.map v.statement := by
    unfold Parse.statements
    rw [Parse.ends_bind, Parse.ends_bound]
    exact Parse.ends_statementsWithin h hfuel hts hc
  unfold Parse.Ends at hstatements
  unfold parseScript
  split at hstatements
  · next hp => rwa [hp]
  · next hp => rwa [hp]

/-- The parser returns the script that the tokens of the text are yielded by. -/
theorem parseScript_eq_ok_iff {script : List Statement} :
    parseScript text = .ok script ↔ ScriptYields script (solid (tokenize text)) := by
  refine ⟨scriptYields_of_parseScript, fun h => ?_⟩
  have hread := parseScript_alike (v := .exact) h rfl
  have hstatement : View.exact.statement = id := funext Statement.relocate_id
  cases hp : parseScript text with
  | ok read =>
    rw [hp, hstatement] at hread
    simpa using hread
  | error fault =>
    rw [hp] at hread
    cases hread.1

end MatrixScript
