import MatrixScript.Proofs.EvaluationFaults
import MatrixScript.Proofs.EvaluationSound
import MatrixScript.Proofs.ParsedPrograms
import MatrixScript.Proofs.PostfixOrder

/-!
# Spans of faults

The ends of the spans of a fault stay on characters, whatever is on the stack when they are put
together.  That the spans run forward takes sentences: a sign without an operand is applied to a
value from before it.
-/

namespace MatrixScript

open Eval

variable {text : String} {V : SpanCondition}

/-! ## Ends on characters -/

def onCharacters (text : String) : SpanCondition where
  Holds s := IsBoundary text s.start ∧ IsBoundary text s.stop
  hull := by
    rintro s t ⟨hs, hs'⟩ ⟨ht, ht'⟩
    dsimp only [Span.hull]
    constructor
    · rcases Nat.le_total s.start t.start with h | h
      · rwa [Nat.min_eq_left h]
      · rwa [Nat.min_eq_right h]
    · rcases Nat.le_total s.stop t.stop with h | h
      · rwa [Nat.max_eq_right h]
      · rwa [Nat.max_eq_left h]

theorem onCharacters_through (s t : Span) (hs : (onCharacters text).Holds s)
    (ht : (onCharacters text).Holds t) : (onCharacters text).Holds (s.through t) :=
  ⟨hs.1, ht.2⟩

def PostfixKeeps (V : SpanCondition) : Postfix Action → Prop
  | .operand action => V.Holds action.span ∧ FaultsAt V action.value
  | .operator (.binary op) => V.Holds op.span
  | .operator (.unary op) => V.Holds op.span

theorem faultsAt_runPostfix (through : ∀ s t, V.Holds s → V.Holds t → V.Holds (s.through t))
    {whole : Span} (hw : V.Holds whole) {items : List (Postfix Action)}
    (hi : ∀ p ∈ items, PostfixKeeps V p) {stack : List (Located Value)}
    (hs : ∀ v ∈ stack, V.Holds v.span) : FaultsAt V (runPostfix whole items stack) := by
  have hmalformed : ∀ s ∈ [whole], V.Holds s := List.forall_mem_singleton.mpr hw
  induction items generalizing stack with
  | nil =>
    match stack with
    | [v] => exact faultsAt_pure _
    | [] | _ :: _ :: _ => exact faultsAt_fail hmalformed
  | cons p rest ih =>
    obtain ⟨hp, hrest⟩ := List.forall_mem_cons.mp hi
    match p, stack with
    | .operand action, stack =>
      exact FaultsAt.bind hp.2 fun value => ih hrest (List.forall_mem_cons.mpr ⟨hp.1, hs⟩)
    | .operator (.binary op), y :: x :: stack =>
      obtain ⟨hy, hs⟩ := List.forall_mem_cons.mp hs
      obtain ⟨hx, hs⟩ := List.forall_mem_cons.mp hs
      have hargs := List.forall_mem_cons.mpr ⟨hx, List.forall_mem_singleton.mpr hy⟩
      exact FaultsAt.bind (faultsAt_located hp hargs _) fun value =>
        ih hrest (List.forall_mem_cons.mpr ⟨through _ _ hx hy, hs⟩)
    | .operator (.unary op), x :: stack =>
      obtain ⟨hx, hs⟩ := List.forall_mem_cons.mp hs
      exact FaultsAt.bind (faultsAt_sign hp hx _) fun value =>
        ih hrest (List.forall_mem_cons.mpr ⟨through _ _ hp hx, hs⟩)
    | .operator (.binary _), [] | .operator (.binary _), [_] | .operator (.unary _), [] =>
      exact faultsAt_fail hmalformed

theorem span_of_parenthesis {items : List (Item Operand)} {s : Span}
    (h : .opening s ∈ actions items ∨ .closing s ∈ actions items) :
    ∃ item ∈ items, item.span = s := by
  rw [actions_eq_map] at h
  rcases h with h | h
  · obtain ⟨item, hi, ha⟩ := List.mem_map.mp h
    cases item <;> cases ha
    exact ⟨_, hi, rfl⟩
  · obtain ⟨item, hi, ha⟩ := List.mem_map.mp h
    cases item <;> cases ha
    exact ⟨_, hi, rfl⟩

theorem postfixKeeps_of_actions {items : List (Item Operand)}
    (hspan : ∀ item ∈ items, V.Holds item.span)
    (hx : ∀ x, .operand x ∈ items → FaultsAt V (operand x)) {p : Postfix Action}
    (hp : p ∈ (actions items).filterMap Item.postfix?) : PostfixKeeps V p := by
  rw [actions_eq_map] at hp
  obtain ⟨_, ha, hp⟩ := List.mem_filterMap.mp hp
  obtain ⟨item, hi, rfl⟩ := List.mem_map.mp ha
  cases item with
  | operand x => cases hp; exact ⟨hspan _ hi, hx x hi⟩
  | binary op => cases hp; exact hspan _ hi
  | unary op => cases hp; exact hspan _ hi
  | opening s => cases hp
  | closing s => cases hp

theorem keeps_of_through (through : ∀ s t, V.Holds s → V.Holds t → V.Holds (s.through t))
    {e : Expression} (own : ∀ s ∈ e.ownSpans, V.Holds s) : Keeps V e where
  own := own
  run := by
    intro hx
    have hspan : ∀ item ∈ e.items, V.Holds item.span := fun item hi =>
      own _ (Infix.mem_ownSpans_of_item hi item.span_mem_ownSpans)
    rw [Tree.runItems_eq]
    cases hp : toPostfix (actions e.items) with
    | error parenthesis =>
      obtain ⟨item, hi, rfl⟩ := span_of_parenthesis (toPostfix_eq_error hp)
      exact faultsAt_fail (List.forall_mem_singleton.mpr (hspan item hi))
    | ok ordered =>
      have hordered : ∀ p ∈ ordered, PostfixKeeps V p := fun p hmem =>
        postfixKeeps_of_actions hspan hx ((perm_toPostfix hp).mem_iff.mp hmem)
      exact faultsAt_runPostfix through (own _ List.mem_cons_self) hordered (List.forall_mem_nil _)

/-! ## Spans that run forward -/

def forward : SpanCondition where
  Holds s := s.start ≤ s.stop
  hull := by
    intro s t hs ht
    exact Nat.le_trans (Nat.min_le_left _ _) (Nat.le_trans hs (Nat.le_max_left _ _))

namespace Tree

theorem inOrder_binary {op : Located BinaryOp} {l r : Tree Operand} {lo hi : Nat}
    (h : InOrder lo ((Tree.binary op l r).items.map Item.span) hi) :
    ∃ mid, InOrder lo (l.items.map Item.span) mid ∧ mid ≤ op.span.start ∧
      op.span.start ≤ op.span.stop ∧ InOrder op.span.stop (r.items.map Item.span) hi := by
  rw [items, List.map_append] at h
  obtain ⟨mid, hl, hop, hle, hr⟩ := h.append
  exact ⟨mid, hl, hop, hle, hr⟩

theorem inOrder_group {opening closing : Span} {t : Tree Operand} {lo hi : Nat}
    (h : InOrder lo ((Tree.group opening closing t).items.map Item.span) hi) :
    ∃ lo' hi', lo ≤ lo' ∧ hi' ≤ hi ∧ InOrder lo' (t.items.map Item.span) hi' := by
  rw [items, List.map_cons, List.map_append] at h
  obtain ⟨hlo, hle, hrest⟩ := h
  obtain ⟨mid, ht, hclosing⟩ := hrest.append
  exact ⟨_, mid, Nat.le_trans hlo hle, hclosing.le, ht⟩

theorem extent_inOrder {t : Tree Operand} {lo hi : Nat}
    (h : InOrder lo (t.items.map Item.span) hi) :
    lo ≤ (t.first Operand.span).start ∧ forward.Holds (t.extent Operand.span) ∧
      (t.last Operand.span).stop ≤ hi := by
  induction t generalizing lo hi with
  | operand x => exact h
  | sign op t ih =>
    obtain ⟨hlo, hop, hrest⟩ := h
    obtain ⟨hfirst, hextent, hlast⟩ := ih hrest
    exact ⟨hlo, Nat.le_trans hop (Nat.le_trans hfirst hextent), hlast⟩
  | binary op l r ihl ihr =>
    obtain ⟨mid, hl, hmid, hop, hr⟩ := inOrder_binary h
    obtain ⟨hfirst, hextent, hmid'⟩ := ihl hl
    obtain ⟨hfirst', hextent', hlast⟩ := ihr hr
    have hle : (l.first Operand.span).start ≤ (r.last Operand.span).stop :=
      calc (l.first Operand.span).start
        _ ≤ (l.last Operand.span).stop := hextent
        _ ≤ op.span.start := Nat.le_trans hmid' hmid
        _ ≤ (r.first Operand.span).start := Nat.le_trans hop hfirst'
        _ ≤ (r.last Operand.span).stop := hextent'
    exact ⟨hfirst, hle, hlast⟩
  | group opening closing t ih =>
    obtain ⟨lo', hi', hlo, hhi, ht⟩ := inOrder_group h
    obtain ⟨hfirst, hextent, hlast⟩ := ih ht
    exact ⟨Nat.le_trans hlo hfirst, hextent, Nat.le_trans hlast hhi⟩

theorem faultsAt_run {t : Tree Operand} {lo hi : Nat}
    (h : InOrder lo (t.items.map Item.span) hi)
    (hx : ∀ x, .operand x ∈ t.items → FaultsAt forward (Eval.operand x)) :
    FaultsAt forward (t.map operandAction).run := by
  induction t generalizing lo hi with
  | operand x => exact hx x (List.mem_singleton_self _)
  | sign op t ih =>
    obtain ⟨-, hop, hrest⟩ := h
    refine FaultsAt.bind (ih hrest fun x hmem => hx x (List.mem_cons_of_mem _ hmem)) fun v => ?_
    rw [extent_map]
    exact faultsAt_sign hop (extent_inOrder hrest).2.1 v
  | binary op l r ihl ihr =>
    obtain ⟨mid, hl, -, hop, hr⟩ := inOrder_binary h
    have hxl : ∀ x, .operand x ∈ l.items → FaultsAt forward (Eval.operand x) := fun x hmem =>
      hx x (List.mem_append_left _ hmem)
    have hxr : ∀ x, .operand x ∈ r.items → FaultsAt forward (Eval.operand x) := fun x hmem =>
      hx x (List.mem_append_right _ (List.mem_cons_of_mem _ hmem))
    refine FaultsAt.bind (ihl hl hxl) fun v => FaultsAt.bind (ihr hr hxr) fun w => ?_
    rw [extent_map, extent_map]
    exact faultsAt_located hop (List.forall_mem_cons.mpr
      ⟨(extent_inOrder hl).2.1, List.forall_mem_singleton.mpr (extent_inOrder hr).2.1⟩) _
  | group opening closing t ih =>
    obtain ⟨lo', hi', -, -, ht⟩ := inOrder_group h
    exact ih ht fun x hmem => hx x (List.mem_cons_of_mem _ (List.mem_append_left _ hmem))

end Tree

theorem keeps_forward {e : Expression} (own : ∀ s ∈ e.ownSpans, forward.Holds s)
    (order : InOrder e.span.start (e.items.map Item.span) e.span.stop)
    (h : IsExpression e.items) : Keeps forward e where
  own := own
  run := by
    intro hx
    obtain ⟨t, ht, hi⟩ := h.exists_tree
    rw [← hi] at hx order ⊢
    rw [actions_treeItems, Tree.runItems_items _ (ht.map operandAction)]
    exact Tree.faultsAt_run order hx

/-! ## Scripts -/

theorem script_eq_error {session session' : Session} {fault : Fault}
    (h : script text session = .error fault session') :
    parseScript text = .error fault ∨
      ∃ parsed, parseScript text = .ok parsed ∧
        statements parsed session = .error fault session' := by
  unfold script at h
  cases hp : parseScript text with
  | error fault' => rw [hp] at h; cases h; exact .inl rfl
  | ok parsed => rw [hp] at h; exact .inr ⟨parsed, rfl, h⟩

theorem Parse.StatementRead.keeps_onCharacters {s : Statement} (h : StatementRead text s) :
    (∀ span ∈ s.ownSpans, (onCharacters text).Holds span) ∧
      ∀ e ∈ s.expressions, Keeps (onCharacters text) e :=
  ⟨fun span hs => ⟨(h.within span hs).start, (h.within span hs).stop⟩, fun e he =>
    keeps_of_through onCharacters_through fun span hs =>
      ⟨((h.inside e he).within span hs).start, ((h.inside e he).within span hs).stop⟩⟩

theorem Parse.StatementRead.keeps_forward {s : Statement} (h : StatementRead text s)
    (hs : ∀ e ∈ s.expressions, IsExpression e.items) :
    (∀ span ∈ s.ownSpans, forward.Holds span) ∧ ∀ e ∈ s.expressions, Keeps forward e :=
  ⟨fun span hspan => (h.within span hspan).le, fun e he =>
    MatrixScript.keeps_forward (fun span hspan => ((h.inside e he).within span hspan).le)
      (h.inside e he).order (hs e he)⟩

/-- The spans of a fault begin and end on characters of the text, and they run forward if the
expressions of the script are sentences. -/
theorem fault_spans_within {session session' : Session} {fault : Fault}
    (h : script text session = .error fault session') :
    (∀ span ∈ fault.spans, IsBoundary text span.start ∧ IsBoundary text span.stop) ∧
      ((∀ parsed, parseScript text = .ok parsed →
          ∀ s ∈ parsed, ∀ e ∈ s.expressions, IsExpression e.items) →
        ∀ span ∈ fault.spans, span.start ≤ span.stop ∧ span.stop ≤ text.utf8ByteSize) := by
  rcases script_eq_error h with hp | ⟨parsed, hp, hrun⟩
  · have hwithin := within_of_parseScript hp
    exact ⟨fun span hs => ⟨(hwithin span hs).start, (hwithin span hs).stop⟩, fun _ span hs =>
      ⟨(hwithin span hs).le, (hwithin span hs).stop.le_utf8ByteSize⟩⟩
  · have hread := statementRead_of_parseScript hp
    have hchars : ∀ span ∈ fault.spans, (onCharacters text).Holds span :=
      faultsAt_statementsFrom .unit (fun s hs => (hread s hs).keeps_onCharacters) _ _ _ hrun
    refine ⟨hchars, fun hsentences span hspan => ⟨?_, (hchars span hspan).2.le_utf8ByteSize⟩⟩
    exact faultsAt_statementsFrom .unit
      (fun s hs => (hread s hs).keeps_forward (hsentences parsed hp s hs)) _ _ _ hrun span hspan

/-- A sum of matrices that do not fit, the second of them with a sign. -/
theorem fault_spans_within_of_sum :
    let text := "print([[1, 2]] + -[[3]]);"
    ∃ fault session', script text {} = .error fault session' ∧
      fault.spans = [⟨6, 14⟩, ⟨15, 16⟩, ⟨17, 23⟩] ∧
        ∀ span ∈ fault.spans, span.start ≤ span.stop ∧ span.stop ≤ text.utf8ByteSize := by
  intro text
  have hsentences : ∀ parsed, parseScript text = .ok parsed →
      ∀ s ∈ parsed, ∀ e ∈ s.expressions, IsExpression e.items := by
    have honly : sentencesOnly? text = some true := by decide +kernel
    exact fun parsed hp => ((sentencesOnly?_eq_some_iff hp).mp honly).mp rfl
  have hspans : (match script text {} with
      | .ok _ _ => []
      | .error fault _ => fault.spans) = [⟨6, 14⟩, ⟨15, 16⟩, ⟨17, 23⟩] := by decide +kernel
  cases h : script text {} with
  | ok value session' => rw [h] at hspans; cases hspans
  | error fault session' =>
    rw [h] at hspans
    exact ⟨fault, session', rfl, hspans, (fault_spans_within h).2 hsentences⟩

/-- The sign at the end is applied to the second matrix, so the span of the result runs
backward. -/
theorem fault_span_backward :
    ∃ fault session', script "print([[1, 2]] + [[1, 2]] * -);" {} = .error fault session' ∧
      ∃ span ∈ fault.spans, span.stop < span.start := by
  have hspans : (match script "print([[1, 2]] + [[1, 2]] * -);" {} with
      | .ok _ _ => []
      | .error fault _ => fault.spans) = [⟨6, 14⟩, ⟨26, 27⟩, ⟨28, 25⟩] := by decide +kernel
  cases h : script "print([[1, 2]] + [[1, 2]] * -);" {} with
  | ok value session' => rw [h] at hspans; cases hspans
  | error fault session' =>
    rw [h] at hspans
    exact ⟨fault, session', rfl, ⟨28, 25⟩, by simp [hspans], by decide⟩

end MatrixScript
