import MatrixScript.Proofs.ParserProgress

/-!
# Recursion of the parser

The loops of the parser are bounded by the number of tokens ahead, and so is the depth of its
expressions.  No bound is ever met: each round of a loop and each nested expression starts at a later
cursor, so the parser is what it would be without bounds.
-/

namespace MatrixScript

namespace Parse

/-! ## Recursion at later cursors -/

section
variable {ι α : Type} {step : (ι → Parse α) → ι → Parse α} {run : ι → Parse α}
  {loop : Nat → ι → Parse α}

/-- `run` is the recursion with the given step, and it goes on at later cursors only: what is put in
the place of `run` elsewhere makes no difference. -/
def Recurses (step : (ι → Parse α) → ι → Parse α) (run : ι → Parse α) : Prop :=
  ∀ again i c, (∀ j d, c < d → again j d = run j d) → step again i c = run i c

/-- The recursion has no other solution, so it ends everywhere. -/
theorem Recurses.unique (h : Recurses step run) {f : ι → Parse α} (hf : ∀ i, f i = step f i) :
    f = run := by
  -- The step goes on with fewer tokens ahead, so the induction is on a bound for their number.
  have hlength (n : Nat) : ∀ i c, c.ahead.length < n → f i c = run i c := by
    induction n with
    | zero => exact fun i c hc => absurd hc (Nat.not_lt_zero _)
    | succ n ih =>
      intro i c hc
      rw [hf i]
      refine h f i c fun j d hd => ih j d ?_
      have hlt := Cursor.length_ahead_lt hd
      omega
  exact funext fun i => funext fun c => hlength _ i c (Nat.lt_succ_self _)

/-- A step depends on what it goes on with at later cursors only. -/
def Descends (step : (ι → Parse α) → ι → Parse α) : Prop :=
  ∀ f g, (∀ j, Orderly (g j)) → ∀ i c, (∀ j d, c < d → f j d = g j d) → step f i c = step g i c

structure Bounded (step : (ι → Parse α) → ι → Parse α) (loop : Nat → ι → Parse α)
    (run : ι → Parse α) : Prop where
  succ : ∀ n i, loop (n + 1) i = step (loop n) i
  orderly : ∀ n i, Orderly (loop n i)
  run : ∀ i, run i = bound >>= fun n => loop n i

theorem Bounded.run_eq (hb : Bounded step loop run) (i : ι) (c : Cursor) :
    run i c = step (loop c.ahead.length) i c := by
  rw [hb.run, ← hb.succ]
  rfl

/-- A bound beyond the number of tokens ahead makes no difference. -/
theorem Bounded.eq_run (hb : Bounded step loop run) (h : Descends step) {n : Nat} {i : ι}
    {c : Cursor} (hn : c.ahead.length < n) : loop n i c = run i c := by
  induction n using Nat.strongRecOn generalizing i c with
  | ind n ih =>
    obtain _ | n := n
    · cases hn
    rw [hb.succ, hb.run_eq]
    refine h _ _ (hb.orderly _) i c fun j d hd => ?_
    -- A later cursor has fewer tokens ahead, so both bounds are still beyond them.
    have hlt := Cursor.length_ahead_lt hd
    rw [ih n (Nat.lt_succ_self n) (by omega), ih c.ahead.length (by omega) hlt]

theorem Bounded.recurses (hb : Bounded step loop run) (h : Descends step) :
    Recurses step run := by
  intro again i c hagain
  rw [hb.run_eq]
  refine h _ _ (hb.orderly _) i c fun j d hd => ?_
  rw [hagain j d hd, hb.eq_run h (Cursor.length_ahead_lt hd)]

end

/-! ## Steps that agree -/

section
variable {α β : Type} {p q : Parse α} {f g : α → Parse β} {c : Cursor}

theorem bind_congr_at (hp : p c = q c) (h : ∀ x d, q c = .ok x d → f x d = g x d) :
    (p >>= f) c = (q >>= g) c := by
  cases hq : q c with
  | ok x d => rw [bind_of_eq_ok (hp.trans hq), bind_of_eq_ok hq, h x d hq]
  | error fault d => rw [bind_of_eq_error (hp.trans hq), bind_of_eq_error hq]

/-- Steps that go on after one that is orderly agree if they do later. -/
theorem bind_congr_later (hp : Orderly p) (h : ∀ x d, c ≤ d → f x d = g x d) :
    (p >>= f) c = (p >>= g) c :=
  bind_congr_at rfl fun x d hd => h x d (hp.forward.le_of_ok hd)

theorem attempt_congr_at (h : p c = q c) : attempt p c = attempt q c := by
  unfold attempt
  rw [h]

end

/-! ## Lists -/

section
variable {α : Type} {item item' : Parse α} {c : Cursor}

def listStep (item : Parse α) (again : Unit → Parse (List α)) (_ : Unit) : Parse (List α) := do
  let x ← item
  if (← accept .comma).isSome then return x :: (← again ()) else return [x]

def listFrom (item : Parse α) (_ : Unit) : Parse (List α) := do commaSeparated item (← bound)

theorem lt_of_accept {kind : TokenKind} {t : Token} {d : Cursor}
    (h : accept kind c = .ok (some t) d) : c < d := by
  change (if c.peekKind? = some kind then some <$> next else pure none : Parse _) c = _ at h
  split at h
  · exact progresses_next.map.lt h
  · cases h

theorem descends_listStep (hitem : Orderly item) : Descends (listStep item) := by
  intro f g hg i c hfg
  refine bind_congr_later hitem fun x d hd => bind_congr_at rfl fun comma e he => ?_
  cases comma with
  | none => rfl
  | some t =>
    have hlt : c < e := hd.trans_lt (lt_of_accept he)
    exact bind_congr_at (hfg () e hlt) fun _ _ _ => rfl

theorem bounded_list (hitem : Orderly item) :
    Bounded (listStep item) (fun n _ => commaSeparated item n) (listFrom item) where
  succ _ _ := rfl
  orderly n _ := orderly_commaSeparated hitem n
  run _ := rfl

theorem commaSeparated_congr (hitem : Orderly item') (h : ∀ d, c ≤ d → item d = item' d)
    (fuel : Nat) : commaSeparated item fuel c = commaSeparated item' fuel c := by
  induction fuel generalizing c with
  | zero => rfl
  | succ fuel ih =>
    refine bind_congr_at (h c le_rfl) fun x d hd => ?_
    have hle : c ≤ d := hitem.forward.le_of_ok hd
    refine bind_congr_later (orderly_accept _) fun comma e he => ?_
    split
    · exact bind_congr_at (ih fun d' hd' => h d' (hle.trans (he.trans hd'))) fun _ _ _ => rfl
    · rfl

theorem bracketed_congr (hitem : Orderly item') (h : ∀ d, c < d → item d = item' d) :
    bracketed item c = bracketed item' c := by
  refine bind_congr_at rfl fun opening d hd => ?_
  have hlt : c < d := (progresses_token _).lt hd
  refine bind_congr_later (orderly_accept _) fun closing e he => ?_
  split
  · rfl
  · refine bind_congr_later orderly_bound fun fuel e' he' => ?_
    have hlater : ∀ d', e' ≤ d' → item d' = item' d' := fun d' hd' =>
      h d' (hlt.trans_le (he.trans (he'.trans hd')))
    exact bind_congr_at (commaSeparated_congr hitem hlater fuel) fun _ _ _ => rfl

end

/-! ## Expressions -/

section
variable {nested nested' : Ending → Parse Expression} {c : Cursor}

/-- One item, with the parentheses that are open and what the item has to be. -/
def itemsStep (nested : Ending → Parse Expression) (ends : Ending)
    (again : List Span × Slot → Parse (List (Item Operand))) (i : List Span × Slot) :
    Parse (List (Item Operand)) := do
  match Move.ofCursor ends i.1 i.2 (← get) with
  | .stop => return []
  | .refuse cause spans => fail cause spans
  | .operand =>
    let x ← operandOf nested
    return .operand x :: (← again (i.1, .operator))
  | .opening =>
    let t ← next
    return .opening t.span :: (← again (t.span :: i.1, .first))
  | .closing =>
    let t ← next
    return .closing t.span :: (← again (i.1.tail, .operator))
  | .unary op =>
    let t ← next
    return .unary ⟨op, t.span⟩ :: (← again (i.1, .operand))
  | .binary op =>
    let t ← next
    return .binary ⟨op, t.span⟩ :: (← again (i.1, .operand))

def itemsFrom (nested : Ending → Parse Expression) (ends : Ending) (i : List Span × Slot) :
    Parse (List (Item Operand)) := do
  itemsOf nested ends (← bound) i.1 i.2

def expressionStep (nested : Ending → Parse Expression) (ends : Ending) : Parse Expression :=
  expressionOf (itemsFrom nested ends ([], .operand))

theorem descends_itemsStep (hn : ∀ ends, Orderly (nested ends)) (ends : Ending) :
    Descends (itemsStep nested ends) := by
  intro f g hg i c hfg
  rw [itemsStep, itemsStep, get_bind, get_bind]
  cases Move.ofCursor ends i.1 i.2 c with
  | stop | refuse => rfl
  | operand =>
    refine bind_congr_at rfl fun x d hd => bind_congr_at (hfg _ d ?_) fun _ _ _ => rfl
    exact (progresses_operandOf hn).lt hd
  | opening | closing | unary | binary =>
    refine bind_congr_at rfl fun t d hd => bind_congr_at (hfg _ d ?_) fun _ _ _ => rfl
    exact progresses_next.lt hd

theorem bounded_items (hn : ∀ ends, Orderly (nested ends)) (ends : Ending) :
    Bounded (itemsStep nested ends) (fun n i => itemsOf nested ends n i.1 i.2)
      (itemsFrom nested ends) where
  succ _ _ := rfl
  orderly n i := orderly_itemsOf hn ends n i.1 i.2
  run _ := rfl

section
variable (hn : ∀ ends, Orderly (nested' ends))
  (h : ∀ ends d, c < d → nested ends d = nested' ends d)
include hn h

theorem callOf_congr (callee : Located String) :
    callOf nested callee c = callOf nested' callee c := by
  refine bind_congr_at rfl fun opening d hd => ?_
  have hlt : c < d := (progresses_token _).lt hd
  refine bind_congr_later (orderly_accept _) fun closing e he => ?_
  split
  · rfl
  · refine bind_congr_later orderly_bound fun fuel e' he' => ?_
    have hlater : ∀ d', e' ≤ d' → nested .argument d' = nested' .argument d' := fun d' hd' =>
      h _ d' (hlt.trans_le (he.trans (he'.trans hd')))
    exact bind_congr_at (commaSeparated_congr (hn _) hlater fuel) fun _ _ _ => rfl

theorem rowOf_congr : rowOf nested c = rowOf nested' c := by
  refine attempt_congr_at (bind_congr_later orderly_peekKind fun kind d hd => ?_)
  split
  · exact bracketed_congr (hn _) fun d' hd' => h _ d' (hd.trans_lt hd')
  · rfl

theorem matrixOf_congr : matrixOf nested c = matrixOf nested' c := by
  refine attempt_congr_at (bracketed_congr (progresses_rowOf hn).orderly fun d hd => ?_)
  exact rowOf_congr hn fun ends d' hd' => h ends d' (hd.trans hd')

theorem operandOf_congr : operandOf nested c = operandOf nested' c := by
  refine bind_congr_later orderly_peekKind fun kind d hd => ?_
  have hlater : ∀ ends d', d < d' → nested ends d' = nested' ends d' := fun ends d' hd' =>
    h ends d' (hd.trans_lt hd')
  split
  · rfl
  · rfl
  · refine bind_congr_later progresses_name.orderly fun symbol e he => ?_
    refine bind_congr_later orderly_peekKind fun kind e' he' => ?_
    split
    · refine map_of_eq (callOf_congr hn (fun ends d' hd' => ?_) symbol) _
      exact hlater ends d' (he.trans_lt (he'.trans_lt hd'))
    · rfl
  · exact map_of_eq (matrixOf_congr hn hlater) _

theorem itemsOf_congr (ends : Ending) (fuel : Nat) (groups : List Span) (slot : Slot) :
    itemsOf nested ends fuel groups slot c = itemsOf nested' ends fuel groups slot c := by
  induction fuel generalizing c groups slot with
  | zero => rfl
  | succ fuel ih =>
    have hih {d : Cursor} (hd : c < d) (groups : List Span) (slot : Slot) :
        itemsOf nested ends fuel groups slot d = itemsOf nested' ends fuel groups slot d :=
      ih (fun ends d' hd' => h ends d' (hd.trans hd')) groups slot
    rw [itemsOf, itemsOf, get_bind, get_bind]
    cases Move.ofCursor ends groups slot c with
    | stop | refuse => rfl
    | operand =>
      refine bind_congr_at (operandOf_congr hn h) fun x d hd => ?_
      exact bind_congr_at (hih ((progresses_operandOf hn).lt hd) _ _) fun _ _ _ => rfl
    | opening | closing | unary | binary =>
      refine bind_congr_at rfl fun t d hd => ?_
      exact bind_congr_at (hih (progresses_next.lt hd) _ _) fun _ _ _ => rfl

end

theorem descends_expressionStep : Descends expressionStep := by
  intro f g hg ends c hfg
  have hitems (fuel : Nat) := itemsOf_congr hg hfg ends fuel [] .operand
  exact bind_congr_at (hitems (c.ahead.length + 1)) fun _ _ _ => rfl

theorem bounded_expression : Bounded expressionStep expressionAt expression where
  succ _ _ := rfl
  orderly n ends := (progresses_expressionAt n ends).orderly
  run _ := rfl

end

/-! ## Statements -/

section
variable {c d : Cursor}

/-- A semicolon that ends nothing, the end, or one statement. -/
def statementsStep (again : Unit → Parse (List Statement)) (_ : Unit) :
    Parse (List Statement) := do
  if (← accept .semicolon).isSome then again ()
  else if (← peekKind?).isNone then return []
  else
    let s ← statement
    return s :: (← again ())

theorem descends_statementsStep : Descends statementsStep := by
  intro f g hg i c hfg
  refine bind_congr_at rfl fun t d hd => ?_
  cases t with
  | some t => exact hfg () d (lt_of_accept hd)
  | none =>
    have hle : c ≤ d := (orderly_accept _).forward.le_of_ok hd
    refine bind_congr_later orderly_peekKind fun kind e he => ?_
    split
    · rfl
    · refine bind_congr_at rfl fun s e' hs => bind_congr_at (hfg () e' ?_) fun _ _ _ => rfl
      exact hle.trans_lt (he.trans_lt (progresses_statement.lt hs))

theorem bounded_statements :
    Bounded statementsStep (fun n _ => statementsWithin n) (fun _ => statements) where
  succ _ _ := rfl
  orderly n _ := orderly_statementsWithin n
  run _ := rfl

/-- Whole statements from one cursor to another one, with semicolons between them. -/
inductive Leads : Cursor → List Statement → Cursor → Prop
  | refl (c : Cursor) : Leads c [] c
  | semicolon {c d e : Cursor} {t : Token} {script : List Statement}
      (h : accept .semicolon c = .ok (some t) d) (hrest : Leads d script e) : Leads c script e
  | statement {c d e : Cursor} {s : Statement} {script : List Statement}
      (h : statement c = .ok s d) (hrest : Leads d script e) : Leads c (s :: script) e

structure StopsAt (c : Cursor) (fault : Fault) (d : Cursor) : Prop where
  leads : ∃ script, Leads c script d
  starts : ∃ kind, d.peekKind? = some kind ∧ kind ≠ .semicolon
  fails : statement d = .error fault d

theorem accept_cases (kind : TokenKind) (c : Cursor) :
    (∃ t d, accept kind c = .ok (some t) d ∧ c < d) ∨
      accept kind c = .ok none c ∧ c.peekKind? ≠ some kind := by
  have haccept : Reaches (accept kind) c (Accepted? c (c.peekKind? = some kind)) := ends_accept
  obtain ⟨t, d, hd, ⟨rfl, rfl, hk⟩ | ⟨u, rfl, -, -⟩⟩ := haccept.exists_eq
  · exact .inr ⟨hd, hk⟩
  · exact .inl ⟨u, d, hd, lt_of_accept hd⟩

theorem eq_of_attempt_error {α : Type} {p : Parse α} {fault : Fault}
    (h : attempt p c = .error fault d) : d = c := by
  cases he : p c with
  | ok x e =>
    rw [attempt_of_eq_ok he] at h
    cases h
  | error fault' e =>
    rw [attempt_of_eq_error he] at h
    cases h
    rfl

theorem stopsAt_of_statementsWithin {fuel : Nat} {fault : Fault} (hfuel : c.ahead.length < fuel)
    (h : statementsWithin fuel c = .error fault d) : StopsAt c fault d := by
  induction fuel generalizing c with
  | zero => cases hfuel
  | succ fuel ih =>
    have hlater {e : Cursor} (he : c < e) (h : statementsWithin fuel e = .error fault d) :
        StopsAt e fault d := by
      refine ih ?_ h
      have hlt := Cursor.length_ahead_lt he
      omega
    rw [statementsWithin] at h
    rcases accept_cases .semicolon c with ⟨t, e, he, hlt⟩ | ⟨hnone, hk⟩
    · rw [bind_of_eq_ok he] at h
      obtain ⟨⟨script, hscript⟩, hstarts, hfails⟩ := hlater hlt h
      exact ⟨⟨script, .semicolon he hscript⟩, hstarts, hfails⟩
    · have hpeek : peekKind? c = .ok c.peekKind? c := rfl
      rw [bind_of_eq_ok hnone, Option.isSome_none, if_neg Bool.false_ne_true,
        bind_of_eq_ok hpeek] at h
      cases hkind : c.peekKind? with
      | none =>
        rw [hkind] at h
        cases h
      | some kind =>
        have hstarts : ∃ kind, c.peekKind? = some kind ∧ kind ≠ .semicolon :=
          ⟨kind, hkind, fun heq => hk (hkind.trans (congrArg some heq))⟩
        rw [hkind, Option.isNone_some, if_neg Bool.false_ne_true] at h
        cases hs : statement c with
        | error fault' e =>
          rw [bind_of_eq_error hs] at h
          cases h
          -- A statement is an attempt, so the cursor is back where the statement starts.
          obtain rfl := eq_of_attempt_error hs
          exact ⟨⟨[], .refl _⟩, hstarts, hs⟩
        | ok s e =>
          rw [bind_of_eq_ok hs] at h
          cases hrest : statementsWithin fuel e with
          | ok script e' =>
            rw [bind_of_eq_ok hrest] at h
            cases h
          | error fault' e' =>
            rw [bind_of_eq_error hrest] at h
            cases h
            obtain ⟨⟨script, hscript⟩, hstarts, hfails⟩ := hlater (progresses_statement.lt hs) hrest
            exact ⟨⟨s :: script, .statement hs hscript⟩, hstarts, hfails⟩

end

/-! ## The parser ends -/

/-- For every list of tokens and every place in it, the loops and the nested expressions go on at
later cursors only.  Whatever is read takes up tokens, and the cursor never goes back, except to the
start of an attempt that fails.  So it is left at the start of the statement that cannot be read. -/
theorem parser_ends :
    (Recurses expressionStep expression ∧
      (∀ ends, Recurses (itemsStep expression ends) (itemsFrom expression ends)) ∧
      (∀ ends, Recurses (listStep (expression ends)) (listFrom (expression ends))) ∧
      Recurses (listStep row) (listFrom row) ∧
      Recurses statementsStep fun _ => statements) ∧
    ((∀ f, (∀ ends, f ends = expressionStep f ends) → f = expression) ∧
      ∀ f, (∀ i, f i = statementsStep f i) → f = fun _ => statements) ∧
    ((∀ ends, Progresses (expression ends)) ∧ Progresses (operandOf expression) ∧
      (∀ callee, Progresses (call callee)) ∧ Progresses row ∧ Progresses matrix ∧
      Progresses declaration ∧ Progresses statement) ∧
    (Orderly statements ∧ ∀ {α : Type} (p : Parse α), Orderly p → Forward p) ∧
    ∀ c fault d, statements c = .error fault d → StopsAt c fault d := by
  have hrow : Orderly row := (progresses_rowOf orderly_expression).orderly
  have hexpression := bounded_expression.recurses descends_expressionStep
  have hstatements := bounded_statements.recurses descends_statementsStep
  refine ⟨⟨hexpression, fun ends => ?_, fun ends => ?_, ?_, hstatements⟩,
    ⟨fun f => hexpression.unique, fun f => hstatements.unique⟩,
    ⟨progresses_expression, progresses_operandOf orderly_expression,
      progresses_callOf orderly_expression, progresses_rowOf orderly_expression,
      progresses_matrixOf orderly_expression, progresses_declaration, progresses_statement⟩,
    ⟨orderly_statements, fun p h => h.forward⟩, fun c fault d h => ?_⟩
  · exact (bounded_items orderly_expression ends).recurses
      (descends_itemsStep orderly_expression ends)
  · exact (bounded_list (orderly_expression ends)).recurses
      (descends_listStep (orderly_expression ends))
  · exact (bounded_list hrow).recurses (descends_listStep hrow)
  · exact stopsAt_of_statementsWithin (Nat.lt_succ_self _) h

def leftAt? {α : Type} (p : Parse α) (c : Cursor) : Option Cursor :=
  match p c with
  | .ok _ _ => none
  | .error _ d => some d

/-- The cursor is left after the second semicolon, where the declaration starts. -/
theorem parser_ends_of_missing_value :
    let c := Cursor.ofText "print(1);; let x = ;"
    ∃ fault d, statements c = .error fault d ∧ d.position = 6 ∧ StopsAt c fault d := by
  intro c
  have hposition : (leftAt? statements c).map Cursor.position = some 6 := by decide +kernel
  unfold leftAt? at hposition
  cases h : statements c with
  | ok script d =>
    rw [h] at hposition
    cases hposition
  | error fault d =>
    rw [h] at hposition
    obtain ⟨-, -, -, -, hstops⟩ := parser_ends
    exact ⟨fault, d, rfl, Option.some.inj hposition, hstops c fault d h⟩

end Parse

end MatrixScript
