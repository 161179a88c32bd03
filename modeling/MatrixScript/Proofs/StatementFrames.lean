import MatrixScript.Proofs.EmittedInstructions
import MatrixScript.Proofs.LimitedOutput
import MatrixScript.Proofs.ReadExpressions

/-!
# What a statement changes

Only `init` and declarations change the variables, and only `print` the output.  So a statement that
calls no `init` inside its expressions declares at most one variable, its own, and does so last.
-/

namespace MatrixScript

open Eval

/-! ## Steps that change nothing in view -/

section
variable {ε α β τ : Type} {view : Session → τ}

/-- However the step ends, the part of the session in view is as it was. -/
def Frames (view : Session → τ) (p : EStateM ε Session α) : Prop :=
  ∀ s, view (stateAfter (p s)) = view s

theorem frames_pure (x : α) : Frames view (pure x : EStateM ε Session α) := fun _ => rfl

theorem frames_throw (e : ε) : Frames view (throw e : EStateM ε Session α) := fun _ => rfl

theorem frames_get : Frames view (get : EStateM ε Session Session) := fun _ => rfl

theorem frames_ofExcept (result : Except ε α) :
    Frames view (ofExcept result : EStateM ε Session α) := by
  cases result with
  | ok x => exact frames_pure x
  | error e => exact frames_throw e

theorem Frames.bind {p : EStateM ε Session α} {f : α → EStateM ε Session β} (hp : Frames view p)
    (hf : ∀ x, Frames view (f x)) : Frames view (p >>= f) := by
  intro s
  have hstep := hp s
  change view (stateAfter (EStateM.bind p f s)) = _
  unfold EStateM.bind
  cases h : p s with
  | ok x s' =>
    rw [h] at hstep
    exact (hf x s').trans hstep
  | error e s' =>
    rw [h] at hstep
    exact hstep

theorem Frames.of_map {p : EStateM ε Session α} {f : α → β} (h : Frames view (f <$> p)) :
    Frames view p := by
  intro s
  rw [← stateAfter_map f]
  exact h s

theorem Silent.frames {p : EStateM ε Session α} (h : Silent p) : Frames Session.sink p := by
  intro s
  have hs : p s = withSink s.sink (p s) := h s s.sink
  rw [hs]
  cases p s <;> rfl

theorem frames_onSink (p : EStateM ε Sink α) : Frames Session.vars (Session.onSink p) := by
  intro s
  unfold Session.onSink
  cases p s.sink <;> rfl

theorem stateAfter_located (callee : Span) (args : List Span)
    (p : EStateM InvocationError Session α) (s : Session) :
    stateAfter (located callee args p s) = stateAfter (p s) := by
  unfold located EStateM.adaptExcept
  cases p s <;> rfl

theorem frames_located {callee : Span} {args : List Span} {p : EStateM InvocationError Session α}
    (h : Frames view p) : Frames view (located callee args p) := by
  intro s
  rw [stateAfter_located]
  exact h s

theorem frames_fail (cause : Cause) (spans : List Span) : Frames view (fail cause spans : Eval α) :=
  frames_throw _

theorem frames_sign (op : Located UnaryOp) (x : Value) (span : Span) :
    Frames view (sign op x span) := by
  unfold sign
  split
  · exact frames_fail _ _
  · exact frames_pure x
  · exact frames_located (frames_ofExcept _)

theorem frames_resolve (name : Located String) : Frames view (resolve name) := by
  refine frames_get.bind fun s => ?_
  split
  · exact frames_pure _
  · split
    · exact frames_pure _
    · exact frames_fail _ _

theorem frames_matrixOfRows (whole : Span) (rowSpans : List Span) (rows : Grid) :
    Frames view (matrixOfRows whole rowSpans rows) := by
  unfold matrixOfRows
  split
  · exact frames_pure _
  · exact frames_fail _ _
  · exact frames_fail _ _

theorem frames_elementOf (span : Span) (value : Value) : Frames view (elementOf span value) := by
  unfold elementOf
  split
  · exact frames_pure _
  · exact frames_fail _ _

/-! ## Invocations -/

theorem frames_vars_invoke {name : String} (h : name ≠ "init") (args : List Value) :
    Frames Session.vars (Session.invoke name args) := by
  rw [Session.invoke, if_neg h]
  split
  · exact frames_onSink _
  · exact frames_throw _

theorem frames_sink_invoke {name : String} (h : name ≠ "print") (args : List Value) :
    Frames Session.sink (Session.invoke name args) := by
  unfold Session.invoke
  split
  · exact (silent_declareFirst args).frames
  · split
    · next b hb =>
      have hname : b.name = name := by simpa using List.find?_some hb
      have hprint : b ≠ .print := by
        rintro rfl
        exact h hname.symm
      obtain ⟨result, hresult⟩ := Builtin.exists_apply_eq hprint args
      rw [hresult]
      exact (silent_onSink result).frames
    · exact frames_throw _

theorem BinaryOp.symbol_ne (op : BinaryOp) : op.symbol ≠ "init" ∧ op.symbol ≠ "print" := by
  cases op <;> decide

/-- What can be invoked under one of the names, or as an operator, changes nothing in view. -/
structure InvokesFrame (view : Session → τ) (names : List String) : Prop where
  operator : ∀ (op : BinaryOp) args, Frames view (Session.invoke op.symbol args)
  named : ∀ name ∈ names, ∀ args, Frames view (Session.invoke name args)

variable {names : List String}

theorem invokesFrame_vars (h : "init" ∉ names) : InvokesFrame Session.vars names :=
  ⟨fun op => frames_vars_invoke op.symbol_ne.1,
    fun _ hname => frames_vars_invoke (ne_of_mem_of_not_mem hname h)⟩

theorem invokesFrame_sink (h : "print" ∉ names) : InvokesFrame Session.sink names :=
  ⟨fun op => frames_sink_invoke op.symbol_ne.2,
    fun _ hname => frames_sink_invoke (ne_of_mem_of_not_mem hname h)⟩

end

/-! ## Called names -/

def Item.callee? : Item Operand → Option String
  | .operand (.call c) => some c.name.value
  | .operand _ | .binary _ | .unary _ | .opening _ | .closing _ => none

/-- The names that the expressions themselves call, without those inside their operands. -/
def calledNames (es : List Expression) : List String :=
  es.flatMap fun e => e.items.filterMap Item.callee?

theorem mem_calledNames {es : List Expression} {e : Expression} {c : Call} (he : e ∈ es)
    (hc : .operand (.call c) ∈ e.items) : c.name.value ∈ calledNames es :=
  List.mem_flatMap.mpr ⟨e, he, List.mem_filterMap.mpr ⟨_, hc, rfl⟩⟩

theorem calledNames_mono {es es' : List Expression} (h : es ⊆ es') :
    calledNames es ⊆ calledNames es' := by
  intro name hname
  obtain ⟨e, he, hmem⟩ := List.mem_flatMap.mp hname
  exact List.mem_flatMap.mpr ⟨e, h he, hmem⟩

namespace Statement

def innerCallees (s : Statement) : List String := calledNames s.expressions

def callees : Statement → List String
  | .declaration d => (Statement.declaration d).innerCallees
  | .call c => c.name.value :: (Statement.call c).innerCallees

inductive Declares : Statement → String → Prop
  | declaration (d : Declaration) : Declares (.declaration d) d.name.value
  | init (c : Call) (name : Located String) (span : Span) (value : Expression)
      (hc : c.name.value = "init") (hargs : c.args = [⟨[.operand (.symbol name)], span⟩, value]) :
      Declares (.call c) name.value

end Statement

/-! ## Expressions -/

section
variable {τ : Type} {view : Session → τ} {es : List Expression}

theorem Instruction.frames_step (h : InvokesFrame view (calledNames es)) {i : Instruction}
    (hi : i.ComesFrom es) (stack : Stack) : Frames view (i.step stack) := by
  rcases hi with hplain | ⟨e, he, x, hx, hemits⟩
  · have hstuck : Frames view (Eval.fail .malformedExpression [] : Eval Stack) := frames_fail _ _
    cases i with
    | push v => exact hplain.elim
    | load name => exact hplain.elim
    | binary op =>
      match stack with
      | y :: x :: stack =>
        exact (frames_located (h.operator op.value _)).bind fun _ => frames_pure _
      | [] | [_] => exact hstuck
    | unary op =>
      match stack with
      | x :: stack => exact (frames_sign op x.value x.span).bind fun _ => frames_pure _
      | [] => exact hstuck
    | place span =>
      match stack with
      | x :: stack => exact frames_pure _
      | [] => exact hstuck
    | element =>
      match stack with
      | x :: stack => exact (frames_elementOf x.span x.value).bind fun _ => frames_pure _
      | [] => exact hstuck
    | matrix span rows => exact (frames_matrixOfRows _ _ _).bind fun _ => frames_pure _
    | invoke callee args span => exact hplain.elim
    | declare name => exact hplain.elim
    | fail cause spans => exact frames_fail cause spans
  · cases hemits with
    | number n => exact frames_pure _
    | load s => exact (frames_resolve s).bind fun _ => frames_pure _
    | declared s span => exact frames_pure _
    | invoke c =>
      have hc := h.named c.name.value (mem_calledNames he hx)
      exact (frames_located (hc _)).bind fun _ => frames_pure _

theorem Code.frames_run (h : InvokesFrame view (calledNames es)) {code : Code}
    (hcode : ∀ i ∈ code, i.ComesFrom es) (stack : Stack) : Frames view (code.run stack) := by
  induction code generalizing stack with
  | nil => exact frames_pure stack
  | cons i code ih =>
    obtain ⟨hi, hcode⟩ := List.forall_mem_cons.mp hcode
    rw [Code.run_cons]
    exact (i.frames_step h hi stack).bind (ih hcode)

theorem frames_expression {e : Expression}
    (h : InvokesFrame view (calledNames (withSubexpressions e))) : Frames view (expression e) := by
  have hrun := Code.frames_run h (comesFrom_expressionCode e) []
  rw [run_expressionCode fun x _ => runs x] at hrun
  exact hrun.of_map

theorem frames_arguments (declares : Bool)
    (h : InvokesFrame view (calledNames (allExpressions es))) :
    Frames view (arguments declares es) := by
  have hrun := Code.frames_run h (comesFrom_argumentsCode declares es) []
  rw [run_argumentsCode declares fun _ _ x _ => runs x] at hrun
  exact hrun.of_map

end

/-! ## Declarations -/

namespace Environment

variable (env : Environment) (name : String) (value : Value)

theorem get?_insert_self : (env.insert name value).get? name = some value := by
  obtain ⟨bindings⟩ := env
  change (insertInto name value bindings).lookup name = some value
  induction bindings with
  | nil => simp [insertInto]
  | cons b bindings ih =>
    obtain ⟨other, old⟩ := b
    rw [insertInto]
    split
    · simp
    · next hne =>
      rw [List.lookup_cons, beq_false_of_ne (Ne.symm hne)]
      exact ih

theorem get?_insert_of_ne {other : String} (h : other ≠ name) :
    (env.insert name value).get? other = env.get? other := by
  obtain ⟨bindings⟩ := env
  have hname : (other == name) = false := beq_false_of_ne h
  change (insertInto name value bindings).lookup other = bindings.lookup other
  induction bindings with
  | nil => simp [insertInto, List.lookup_cons, hname]
  | cons b bindings ih =>
    obtain ⟨first, old⟩ := b
    rw [insertInto]
    split
    · next heq => simp [List.lookup_cons, heq, hname]
    · simp only [List.lookup_cons, ih]

end Environment

namespace Session

theorem declare_apply (name : String) (value : Value) (s : Session) :
    declare name value s =
      if isReserved name then .error (.reservedName name) s
      else .ok () { s with vars := s.vars.insert name value } := by
  unfold declare
  split <;> rfl

theorem declareFirst_cases (args : List Value) (s : Session) :
    (∃ name value, args = [.symbol name, value] ∧ isReserved name = false ∧
      declareFirst args s = .ok value { s with vars := s.vars.insert name value }) ∨
    ∃ e, declareFirst args s = .error e s := by
  match args with
  | [.symbol name, value] =>
    cases hname : isReserved name with
    | false =>
      refine .inl ⟨name, value, rfl, hname, ?_⟩
      change EStateM.bind (declare name value) _ s = _
      simp only [EStateM.bind, declare_apply, hname, Bool.false_eq_true, if_false]
      rfl
    | true =>
      refine .inr ⟨.reservedName name, ?_⟩
      change EStateM.bind (declare name value) _ s = _
      simp only [EStateM.bind, declare_apply, hname, if_true]
  | [.integer _, _] | [.rational _, _] | [.matrix _, _] | [.unit, _] => exact .inr ⟨_, rfl⟩
  | [] | [_] => exact .inr ⟨_, rfl⟩
  | _ :: _ :: _ :: args =>
    have hlong : args.length + 3 > 2 := by omega
    refine .inr ⟨.tooManyArguments "init" 2 (args.length + 3), ?_⟩
    unfold declareFirst Arity.check
    simp only [List.length_cons, if_pos hlong]
    rfl

end Session

namespace Eval

/-- Declares the name with the value of the expression; faults of the declaration are at these
spans. -/
def declaring (callee : Span) (args : List Span) (name : String) (e : Expression) : Eval Value := do
  let value ← expression e
  located callee args (Session.declare name value)
  return value

theorem declaring_apply (callee : Span) (args : List Span) (name : String) (e : Expression)
    (s : Session) :
    declaring callee args name e s =
      match expression e s with
      | .ok value s' =>
        if isReserved name then .error (InvocationError.locate callee args (.reservedName name)) s'
        else .ok value { s' with vars := s'.vars.insert name value }
      | .error fault s' => .error fault s' := by
  unfold declaring
  change EStateM.bind (expression e) _ s = _
  unfold EStateM.bind
  cases expression e s with
  | error fault s' => rfl
  | ok value s' =>
    change EStateM.bind (located callee args (Session.declare name value)) _ s' = _
    unfold EStateM.bind located EStateM.adaptExcept
    rw [Session.declare_apply]
    cases isReserved name <;> rfl

theorem located_declareFirst (callee : Span) (args : List Span) (name : String) (value : Value) :
    located callee args (Session.declareFirst [.symbol name, value]) =
      (do located callee args (Session.declare name value); return value) := by
  funext s
  change EStateM.adaptExcept _ (EStateM.bind (Session.declare name value) _) s =
    EStateM.bind (EStateM.adaptExcept _ (Session.declare name value)) _ s
  simp only [EStateM.adaptExcept, EStateM.bind, Session.declare_apply]
  cases isReserved name <;> rfl

theorem exists_of_located_eq_error {α : Type} {callee : Span} {args : List Span}
    {p : EStateM InvocationError Session α} {s s' : Session} {fault : Fault}
    (h : located callee args p s = .error fault s') : ∃ e, p s = .error e s' := by
  unfold located EStateM.adaptExcept at h
  split at h
  · next e s₁ hp =>
    cases h
    exact ⟨e, hp⟩
  · cases h

theorem argument_false (e : Expression) : argument false e = expression e := by
  rw [argument, expression]
  rfl

theorem call_init (callee : Located String) (hc : callee.value = "init") (name : Located String)
    (span : Span) (e : Expression) (whole parens : Span) :
    call ⟨callee, [⟨[.operand (.symbol name)], span⟩, e], whole, parens⟩ =
      declaring callee.span [span, e.span] name.value e := by
  rw [call, hc]
  simp only [arguments, argument_false, bind_assoc, pure_bind]
  change (expression e >>= fun v => located callee.span [span, e.span]
    (Session.declareFirst [.symbol name.value, v])) = declaring _ _ _ _
  simp only [located_declareFirst]
  rfl

end Eval

theorem Statement.Declares.exists_declaring {st : Statement} {name : String}
    (h : st.Declares name) :
    ∃ callee args e, withSubexpressions e ⊆ st.expressions ∧
      statement st = declaring callee args name e := by
  cases h with
  | declaration d => exact ⟨d.name.span, [], d.value, List.Subset.refl _, rfl⟩
  | init c name span value hc hargs =>
    obtain ⟨callee, args, whole, parens⟩ := c
    dsimp only at hc hargs
    subst hargs
    refine ⟨callee.span, [span, value.span], value, ?_,
      call_init callee hc name span value whole parens⟩
    intro e he
    exact mem_callExpressions.mpr ⟨value, by simp, he⟩

namespace Eval

variable {st : Statement} {s s' : Session} {v : Value} {fault : Fault}

theorem vars_of_invoke_eq_error {name : String} {args : List Value} {e : InvocationError}
    (h : Session.invoke name args s = .error e s') : s'.vars = s.vars := by
  by_cases hname : name = "init"
  · rw [Session.invoke, if_pos hname] at h
    rcases Session.declareFirst_cases args s with ⟨other, value, -, -, hok⟩ | ⟨e', herror⟩
    · rw [hok] at h
      cases h
    · rw [herror] at h
      cases h
      rfl
  · have hs := frames_vars_invoke hname args s
    rw [h] at hs
    exact hs

theorem vars_of_statement_eq_error (h : "init" ∉ st.innerCallees)
    (hrun : statement st s = .error fault s') : s'.vars = s.vars := by
  have hframe := @invokesFrame_vars _ h
  cases st with
  | declaration d =>
    have hs := frames_expression hframe s
    change declaring d.name.span [] d.name.value d.value s = _ at hrun
    rw [declaring_apply] at hrun
    cases he : expression d.value s with
    | error fault' s₁ =>
      rw [he] at hrun hs
      cases hrun
      exact hs
    | ok value s₁ =>
      rw [he] at hrun hs
      dsimp only at hrun
      split at hrun
      · cases hrun
        exact hs
      · cases hrun
  | call c =>
    obtain ⟨name, args, span, parens⟩ := c
    have hs := frames_arguments (name.value == "init") hframe s
    rw [statement, Eval.call] at hrun
    rcases of_bind_eq_error hrun with hrun | ⟨values, s₁, hvalues, hrun⟩
    · rw [hrun] at hs
      exact hs
    · rw [hvalues] at hs
      obtain ⟨e, he⟩ := exists_of_located_eq_error hrun
      exact (vars_of_invoke_eq_error he).trans hs

theorem vars_of_call (h : "init" ∉ st.innerCallees) {c : Call} (hc : st = .call c)
    (hname : c.name.value ≠ "init") : Frames Session.vars (statement st) := by
  subst hc
  obtain ⟨name, args, span, parens⟩ := c
  have hargs := frames_arguments (name.value == "init") (invokesFrame_vars h)
  exact hargs.bind fun _ => frames_located (frames_vars_invoke hname _)

theorem vars_of_declares {name : String} (hname : st.Declares name) (h : "init" ∉ st.innerCallees)
    (hrun : statement st s = .ok v s') :
    s'.vars = s.vars.insert name v := by
  obtain ⟨callee, args, e, hsub, hst⟩ := hname.exists_declaring
  have hcallees : "init" ∉ calledNames (withSubexpressions e) :=
    fun hmem => h (calledNames_mono hsub hmem)
  have hs := frames_expression (invokesFrame_vars hcallees) s
  rw [hst, declaring_apply] at hrun
  cases he : expression e s with
  | error fault s₁ =>
    rw [he] at hrun
    cases hrun
  | ok value s₁ =>
    rw [he] at hrun hs
    dsimp only at hrun
    split at hrun
    · cases hrun
    · cases hrun
      exact congrArg (Environment.insert · name v) hs

theorem frames_sink_statement (h : "print" ∉ st.callees) :
    Frames Session.sink (statement st) := by
  cases st with
  | declaration d =>
    refine (frames_expression (invokesFrame_sink h)).bind fun value => ?_
    have hdeclare := (silent_declare d.name.value value).frames
    exact (frames_located hdeclare).bind fun _ => frames_pure _
  | call c =>
    obtain ⟨name, args, span, parens⟩ := c
    obtain ⟨hname, hinner⟩ := List.ne_and_not_mem_of_not_mem_cons h
    have hinvoke := frames_sink_invoke (Ne.symm hname)
    exact (frames_arguments _ (invokesFrame_sink hinner)).bind fun _ => frames_located (hinvoke _)

end Eval

/-- A statement that calls no `init` inside its expressions changes the variables only by declaring
its own, and only if it succeeds.  If it calls no `print` either, the sink stays as it was. -/
theorem statement_changes (st : Statement) (h : "init" ∉ st.innerCallees) (s : Session) :
    (∀ fault s', statement st s = .error fault s' → s'.vars = s.vars) ∧
    (∀ c v s', st = .call c → c.name.value ≠ "init" → statement st s = .ok v s' →
      s'.vars = s.vars) ∧
    (∀ name v s', st.Declares name → statement st s = .ok v s' →
      s'.vars.get? name = some v ∧
      ∀ other, other ≠ name → s'.vars.get? other = s.vars.get? other) ∧
    ("print" ∉ st.callees → (stateAfter (statement st s)).sink = s.sink) := by
  refine ⟨fun fault s' hrun => vars_of_statement_eq_error h hrun, ?_, ?_,
    fun hprint => frames_sink_statement hprint s⟩
  · intro c v s' hc hname hrun
    have hs := vars_of_call h hc hname s
    rw [hrun] at hs
    exact hs
  · intro name v s' hname hrun
    rw [vars_of_declares hname h hrun]
    exact ⟨s.vars.get?_insert_self name v, fun other hne => s.vars.get?_insert_of_ne name v hne⟩

/-- `init(y, x / z);` where `z` is not zero, and where it is. -/
theorem statement_changes_of_quotient :
    let y : Expression := ⟨[.operand (.symbol ⟨"y", ⟨5, 6⟩⟩)], ⟨5, 6⟩⟩
    let quotient : Expression := ⟨[.operand (.symbol ⟨"x", ⟨8, 9⟩⟩), .binary ⟨.div, ⟨10, 11⟩⟩,
      .operand (.symbol ⟨"z", ⟨12, 13⟩⟩)], ⟨8, 13⟩⟩
    let st : Statement := .call ⟨⟨"init", ⟨0, 4⟩⟩, [y, quotient], ⟨0, 14⟩, ⟨4, 14⟩⟩
    let s : Session := { vars := ⟨[("x", .integer 6), ("z", .integer 3)]⟩ }
    let zero : Session := { vars := ⟨[("x", .integer 6), ("z", .integer 0)]⟩ }
    "init" ∉ st.innerCallees ∧ "print" ∉ st.callees ∧
      (∃ s', statement st s = .ok (.integer 2) s' ∧ s'.vars.get? "y" = some (.integer 2) ∧
        s'.vars.get? "x" = some (.integer 6) ∧ s'.sink = s.sink) ∧
      ∃ fault s', statement st zero = .error fault s' ∧ s'.vars = zero.vars := by
  intro y quotient st s zero
  have hinit : "init" ∉ st.innerCallees := by decide
  have hprint : "print" ∉ st.callees := by decide
  have hdeclares : st.Declares "y" := .init _ ⟨"y", ⟨5, 6⟩⟩ ⟨5, 6⟩ quotient rfl rfl
  obtain ⟨-, -, hdeclared, hsink⟩ := statement_changes st hinit s
  obtain ⟨hfailed, -⟩ := statement_changes st hinit zero
  have hok : statement st s = .ok (.integer 2) (stateAfter (statement st s)) := by decide +kernel
  obtain ⟨hy, hother⟩ := hdeclared _ _ _ hdeclares hok
  refine ⟨hinit, hprint, ⟨_, hok, hy, hother "x" (by decide), hsink hprint⟩, ?_⟩
  have herror : statement st zero =
      .error ⟨.arithmetic .divisionByZero, [⟨8, 13⟩]⟩ (stateAfter (statement st zero)) := by
    decide +kernel
  exact ⟨_, _, herror, hfailed _ _ herror⟩

end MatrixScript
