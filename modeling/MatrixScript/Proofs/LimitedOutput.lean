import MatrixScript.Proofs.Instructions
import MatrixScript.Proofs.LawfulSessions

/-!
# Limited output

Only `print` looks at the sink.  So a run with a limit on its output goes on like one without until
a value does not fit, and there it stops: no variable is declared and nothing is written after that.
-/

namespace MatrixScript

open Eval

section
variable {ε α β : Type}

/-! ## Steps that leave the sink alone -/

def withSink (sink : Sink) : EStateM.Result ε Session α → EStateM.Result ε Session α
  | .ok x s => .ok x { s with sink }
  | .error e s => .error e { s with sink }

def Silent (p : EStateM ε Session α) : Prop :=
  ∀ s sink, p { s with sink } = withSink sink (p s)

theorem silent_pure (x : α) : Silent (pure x : EStateM ε Session α) := fun _ _ => rfl

theorem silent_throw (e : ε) : Silent (throw e : EStateM ε Session α) := fun _ _ => rfl

theorem silent_ofExcept (result : Except ε α) : Silent (ofExcept result : EStateM ε Session α) := by
  cases result with
  | ok x => exact silent_pure x
  | error e => exact silent_throw e

theorem Silent.bind {p : EStateM ε Session α} {f : α → EStateM ε Session β} (hp : Silent p)
    (hf : ∀ x, Silent (f x)) : Silent (p >>= f) := by
  intro s sink
  change EStateM.bind p f { s with sink } = withSink sink (EStateM.bind p f s)
  unfold EStateM.bind
  rw [hp s sink]
  cases p s with
  | ok x s' => exact hf x s' sink
  | error e s' => rfl

theorem silent_declare (name : String) (value : Value) : Silent (Session.declare name value) := by
  unfold Session.declare
  split
  · exact silent_throw _
  · exact fun _ _ => rfl

theorem silent_declareFirst (args : List Value) : Silent (Session.declareFirst args) := by
  unfold Session.declareFirst
  refine (silent_ofExcept _).bind fun _ => ?_
  split
  · exact (silent_declare _ _).bind fun _ => silent_pure _
  · exact silent_throw _

theorem silent_onSink (result : Except ε α) :
    Silent (Session.onSink (ofExcept result : EStateM ε Sink α)) := by
  cases result with
  | ok x => exact silent_pure x
  | error e => exact silent_throw e

/-- A builtin that does not print does not depend on the sink. -/
theorem Builtin.exists_apply_eq {b : Builtin} (h : b ≠ .print) (args : List Value) :
    ∃ result, b.apply args = ofExcept result := by
  unfold Builtin.apply
  cases hc : b.arity.check b.name args.length with
  | error e => exact ⟨.error e, rfl⟩
  | ok _ =>
    cases b with
    | print => exact absurd rfl h
    | operator op =>
      match args with
      | x :: y :: _ => exact ⟨op.apply x y, rfl⟩
      | [] | [_] => exact ⟨.error _, rfl⟩
    | transpose =>
      match args with
      | .matrix m :: _ => exact ⟨.ok (.matrix m.transpose), rfl⟩
      | [] | .integer _ :: _ | .rational _ :: _ | .symbol _ :: _ | .unit :: _ =>
        exact ⟨.error _, rfl⟩
    | reduction r =>
      match args with
      | .matrix m :: _ => exact ⟨_, rfl⟩
      | [] | .integer _ :: _ | .rational _ :: _ | .symbol _ :: _ | .unit :: _ =>
        exact ⟨.error _, rfl⟩

theorem silent_located {callee : Span} {args : List Span} {p : EStateM InvocationError Session α}
    (h : Silent p) : Silent (located callee args p) := by
  intro s sink
  unfold located EStateM.adaptExcept
  rw [h s sink]
  cases p s with
  | ok x s' => rfl
  | error e s' => rfl

theorem silent_fail (cause : Cause) (spans : List Span) : Silent (fail cause spans : Eval α) :=
  silent_throw _

theorem silent_sign (op : Located UnaryOp) (x : Value) (span : Span) : Silent (sign op x span) := by
  unfold sign
  split
  · exact silent_fail _ _
  · exact silent_pure x
  · exact silent_located (silent_ofExcept _)

theorem silent_get_bind {f : Session → EStateM ε Session α}
    (hvars : ∀ s sink, f { s with sink } = f s) (hf : ∀ s, Silent (f s)) : Silent (get >>= f) := by
  intro s sink
  change f { s with sink } { s with sink } = withSink sink (f s s)
  rw [hvars]
  exact hf s s sink

theorem silent_resolve (name : Located String) : Silent (resolve name) := by
  refine silent_get_bind (fun s sink => rfl) fun s => ?_
  split
  · exact silent_pure _
  · split
    · exact silent_pure _
    · exact silent_fail _ _

theorem silent_matrixOfRows (whole : Span) (rowSpans : List Span) (rows : Grid) :
    Silent (matrixOfRows whole rowSpans rows) := by
  unfold matrixOfRows
  split
  · exact silent_pure _
  · exact silent_fail _ _
  · exact silent_fail _ _

theorem silent_elementOf (span : Span) (value : Value) : Silent (elementOf span value) := by
  unfold elementOf
  split
  · exact silent_pure _
  · exact silent_fail _ _

/-! ## Steps that obey the limit -/

/-- How a step ends without a limit on its output and with one.  If what it writes does not fit, it
declares nothing. -/
inductive Limits (Full : ε → Prop) (limit : Nat) (vars : Environment) (written : List UInt8) :
    EStateM.Result ε Session α → EStateM.Result ε Session α → Prop
  | ok (x : α) (vars' : Environment) (more : List UInt8) (h : (written ++ more).length ≤ limit) :
    Limits Full limit vars written (.ok x ⟨vars', ⟨written ++ more, none⟩⟩)
      (.ok x ⟨vars', ⟨written ++ more, some limit⟩⟩)
  | error (e : ε) (vars' : Environment) (more : List UInt8)
      (h : (written ++ more).length ≤ limit) :
    Limits Full limit vars written (.error e ⟨vars', ⟨written ++ more, none⟩⟩)
      (.error e ⟨vars', ⟨written ++ more, some limit⟩⟩)
  | full (free : EStateM.Result ε Session α) (e : ε) (more : List UInt8)
      (hfree : stateAfter free = ⟨vars, ⟨written ++ more, none⟩⟩)
      (h : limit < (written ++ more).length) (he : Full e) :
    Limits Full limit vars written free
      (.error e ⟨vars, ⟨(written ++ more).take limit, some limit⟩⟩)

def Obeys (Full : ε → Prop) (p : EStateM ε Session α) : Prop :=
  ∀ vars written limit, written.length ≤ limit →
    Limits Full limit vars written (p ⟨vars, ⟨written, none⟩⟩) (p ⟨vars, ⟨written, some limit⟩⟩)

variable {Full : ε → Prop}

theorem Silent.obeys {p : EStateM ε Session α} (h : Silent p) : Obeys Full p := by
  intro vars written limit hle
  -- the sink that is left is the one that the step began with
  have hfree := h ⟨vars, ⟨written, none⟩⟩ ⟨written, none⟩
  have hlimited := h ⟨vars, ⟨written, none⟩⟩ ⟨written, some limit⟩
  dsimp only at hfree hlimited
  rw [hlimited]
  have hfits : (written ++ []).length ≤ limit := by rwa [List.append_nil]
  cases hp : p ⟨vars, ⟨written, none⟩⟩ with
  | ok x s =>
    have hok : Limits Full limit vars written (.ok x ⟨s.vars, ⟨written ++ [], none⟩⟩)
        (.ok x ⟨s.vars, ⟨written ++ [], some limit⟩⟩) := .ok x s.vars [] hfits
    rw [hp] at hfree
    rw [hfree]
    rwa [List.append_nil] at hok
  | error e s =>
    have herror : @Limits ε α Full limit vars written (.error e ⟨s.vars, ⟨written ++ [], none⟩⟩)
        (.error e ⟨s.vars, ⟨written ++ [], some limit⟩⟩) := .error e s.vars [] hfits
    rw [hp] at hfree
    rw [hfree]
    rwa [List.append_nil] at herror

theorem Obeys.map {p : EStateM ε Session α} (h : Obeys Full p) (f : α → β) :
    Obeys Full (p >>= fun x => pure (f x)) := by
  intro vars written limit hle
  have hstep := h vars written limit hle
  change Limits Full limit vars written (EStateM.bind p _ _) (EStateM.bind p _ _)
  unfold EStateM.bind
  generalize p ⟨vars, ⟨written, none⟩⟩ = free at hstep
  generalize p ⟨vars, ⟨written, some limit⟩⟩ = limited at hstep
  cases hstep with
  | ok x vars' more hfits => exact .ok (f x) vars' more hfits
  | error e vars' more hfits => exact .error e vars' more hfits
  | full _ e more hfree hfull he =>
    refine .full _ e more ?_ hfull he
    rw [← hfree]
    cases free <;> rfl

end

/-! ## Printing -/

def printed (values : List Value) : List UInt8 := values.flatMap fun v => utf8Bytes (v.text ++ "\n")

theorem printed_cons (v : Value) (values : List Value) :
    printed (v :: values) = utf8Bytes (v.text ++ "\n") ++ printed values := List.flatMap_cons

theorem printAll_free (values : List Value) (written : List UInt8) :
    printAll values ⟨written, none⟩ = .ok () ⟨written ++ printed values, none⟩ := by
  induction values generalizing written with
  | nil => rw [printed, List.flatMap_nil, List.append_nil]; rfl
  | cons v values ih =>
    rw [printed_cons, ← List.append_assoc, ← ih]
    rfl

/-- The value that does not fit is written in part, and none after it. -/
theorem printAll_limited (values : List Value) {written : List UInt8} {limit : Nat}
    (h : written.length ≤ limit) :
    printAll values ⟨written, some limit⟩ =
      if (written ++ printed values).length ≤ limit then
        .ok () ⟨written ++ printed values, some limit⟩
      else
        .error (.output "sink is full") ⟨(written ++ printed values).take limit, some limit⟩ := by
  induction values generalizing written with
  | nil => simp only [printed, List.flatMap_nil, List.append_nil, if_pos h]; rfl
  | cons v values ih =>
    rw [printed_cons, ← List.append_assoc, printAll]
    change EStateM.bind _ _ _ = _
    unfold EStateM.bind Sink.write
    by_cases hfits : (written ++ utf8Bytes (v.text ++ "\n")).length ≤ limit
    · simp only [if_pos hfits]
      exact ih hfits
    · have hlong : ¬ (written ++ utf8Bytes (v.text ++ "\n") ++ printed values).length ≤ limit := by
        rw [List.length_append]
        omega
      have hcut : (written ++ utf8Bytes (v.text ++ "\n") ++ printed values).take limit =
          (written ++ utf8Bytes (v.text ++ "\n")).take limit :=
        List.take_append_of_le_length (Nat.le_of_lt (Nat.lt_of_not_le hfits))
      simp only [if_neg hfits, if_neg hlong, hcut]

def IsFull (e : InvocationError) : Prop := e = .output "sink is full"

theorem obeys_print (args : List Value) :
    Obeys IsFull (Session.onSink (Builtin.print.apply args)) := by
  intro vars written limit hle
  have happly (sink : Sink) : Builtin.print.apply args sink =
      match printAll args sink with
      | .ok _ sink' => .ok .unit sink'
      | .error e sink' => .error e sink' := by
    change EStateM.bind (printAll args) (fun _ => pure Value.unit) sink = _
    unfold EStateM.bind
    cases printAll args sink <;> rfl
  unfold Session.onSink
  simp only [happly, printAll_free, printAll_limited args hle]
  by_cases hfits : (written ++ printed args).length ≤ limit
  · simp only [if_pos hfits]
    exact .ok Value.unit vars (printed args) hfits
  · simp only [if_neg hfits]
    exact .full _ _ (printed args) rfl (Nat.lt_of_not_le hfits) rfl

theorem obeys_invoke (name : String) (args : List Value) :
    Obeys IsFull (Session.invoke name args) := by
  unfold Session.invoke
  split
  · exact (silent_declareFirst args).obeys
  · split
    · next b _ =>
      by_cases hb : b = .print
      · rw [hb]
        exact obeys_print args
      · obtain ⟨result, hresult⟩ := Builtin.exists_apply_eq hb args
        rw [hresult]
        exact (silent_onSink result).obeys
    · exact (silent_throw _).obeys

/-! ## Instructions -/

def OutputFailed (fault : Fault) : Prop := ∃ spans, fault = ⟨.outputFailed "sink is full", spans⟩

theorem obeys_located {α : Type} {callee : Span} {args : List Span}
    {p : EStateM InvocationError Session α} (h : Obeys IsFull p) :
    Obeys OutputFailed (located callee args p) := by
  intro vars written limit hle
  have hstep := h vars written limit hle
  unfold located EStateM.adaptExcept
  generalize p ⟨vars, ⟨written, none⟩⟩ = free at hstep
  generalize p ⟨vars, ⟨written, some limit⟩⟩ = limited at hstep
  cases hstep with
  | ok x vars' more hfits => exact .ok x vars' more hfits
  | error e vars' more hfits => exact .error _ vars' more hfits
  | full _ e more hfree hfull he =>
    cases he
    refine .full _ _ more ?_ hfull ⟨_, rfl⟩
    rw [← hfree]
    cases free <;> rfl

theorem Instruction.obeys_step (i : Instruction) (stack : Stack) :
    Obeys OutputFailed (i.step stack) := by
  have hstuck : Obeys OutputFailed (Eval.fail .malformedExpression [] : Eval Stack) :=
    (silent_fail _ _).obeys
  cases i with
  | push v => exact (silent_pure _).obeys
  | load name => exact (silent_resolve name).obeys.map _
  | binary op =>
    match stack with
    | y :: x :: stack => exact (obeys_located (obeys_invoke _ _)).map _
    | [] | [_] => exact hstuck
  | unary op =>
    match stack with
    | x :: stack => exact (silent_sign op x.value x.span).obeys.map _
    | [] => exact hstuck
  | place span =>
    match stack with
    | x :: stack => exact (silent_pure _).obeys
    | [] => exact hstuck
  | element =>
    match stack with
    | x :: stack => exact (silent_elementOf x.span x.value).obeys.map _
    | [] => exact hstuck
  | matrix span rows => exact (silent_matrixOfRows _ _ _).obeys.map _
  | invoke callee args span => exact (obeys_located (obeys_invoke _ _)).map _
  | declare name =>
    match stack with
    | x :: stack => exact (silent_located (silent_declare name.value x.value)).obeys.map _
    | [] => exact hstuck
  | fail cause spans => exact (silent_fail cause spans).obeys

/-! ## Runs -/

def withLimit {ε α : Type} (limit : Option Nat) :
    EStateM.Result ε Session α → EStateM.Result ε Session α
  | .ok x s => .ok x ⟨s.vars, ⟨s.sink.written, limit⟩⟩
  | .error e s => .error e ⟨s.vars, ⟨s.sink.written, limit⟩⟩

/-- The run of the code without a limit, which ends as `free`, comes to an instruction that writes
more than the limit allows.  The limited run ends there: it has the variables that the other one has
before that instruction and after it. -/
def StopsWithin (limit : Nat) (code : Code) (stack : Stack) (s : Session)
    (free limited : EStateM.Result Fault Session Stack) : Prop :=
  ∃ before i after, code = before ++ i :: after ∧
    ∃ stack' m, Code.run before stack s = .ok stack' m ∧
      m.sink.written.length ≤ limit ∧
      limit < (stateAfter (i.step stack' m)).sink.written.length ∧
      (stateAfter (i.step stack' m)).vars = m.vars ∧
      ∃ fault, OutputFailed fault ∧ limited = .error fault
        ⟨m.vars, ⟨(stateAfter free).sink.written.take limit, some limit⟩⟩

theorem Limits.exists_more {ε α : Type} {Full : ε → Prop} {limit : Nat} {vars : Environment}
    {written : List UInt8} {free limited : EStateM.Result ε Session α}
    (h : Limits Full limit vars written free limited) :
    ∃ more, (stateAfter free).sink = ⟨written ++ more, none⟩ := by
  cases h with
  | ok x vars' more => exact ⟨more, rfl⟩
  | error e vars' more => exact ⟨more, rfl⟩
  | full _ e more hfree => exact ⟨more, by rw [hfree]⟩

theorem Code.run_cons_apply (i : Instruction) (code : Code) (stack : Stack) (s : Session) :
    run (i :: code) stack s =
      match i.step stack s with
      | .ok stack' s' => run code stack' s'
      | .error fault s' => .error fault s' := by
  change EStateM.bind (i.step stack) (run code) s = _
  unfold EStateM.bind
  cases i.step stack s <;> rfl

theorem exists_more_of_run (code : Code) (stack : Stack) (vars : Environment)
    (written : List UInt8) :
    ∃ more, (stateAfter (code.run stack ⟨vars, ⟨written, none⟩⟩)).sink =
      ⟨written ++ more, none⟩ := by
  induction code generalizing stack vars written with
  | nil => exact ⟨[], by rw [List.append_nil]; rfl⟩
  | cons i code ih =>
    obtain ⟨more, hmore⟩ := (i.obeys_step stack vars written _ (Nat.le_refl _)).exists_more
    rw [Code.run_cons_apply]
    cases hi : i.step stack ⟨vars, ⟨written, none⟩⟩ with
    | ok stack' s =>
      obtain ⟨vars', sink⟩ := s
      rw [hi] at hmore
      cases hmore
      obtain ⟨more', hrest⟩ := ih stack' vars' (written ++ more)
      exact ⟨more ++ more', by rw [← List.append_assoc]; exact hrest⟩
    | error fault s =>
      rw [hi] at hmore
      exact ⟨more, hmore⟩

theorem StopsWithin.cons {limit : Nat} {i : Instruction} {code : Code} {stack stack' : Stack}
    {s s' : Session} {free limited : EStateM.Result Fault Session Stack}
    (hi : i.step stack s = .ok stack' s') (h : StopsWithin limit code stack' s' free limited) :
    StopsWithin limit (i :: code) stack s free limited := by
  obtain ⟨before, j, after, rfl, stack₁, m, hrun, hrest⟩ := h
  refine ⟨i :: before, j, after, rfl, stack₁, m, ?_, hrest⟩
  rw [Code.run_cons_apply, hi]
  exact hrun

/-- How the run with a limit compares with the one without. -/
inductive Follows (limit : Nat) (code : Code) (stack : Stack) (s : Session)
    (free limited : EStateM.Result Fault Session Stack) : Prop
  | fits (h : (stateAfter free).sink.written.length ≤ limit)
      (heq : limited = withLimit (some limit) free)
  | stops (h : limit < (stateAfter free).sink.written.length)
      (hstops : StopsWithin limit code stack s free limited)

theorem run_limited (code : Code) (stack : Stack) (vars : Environment) {written : List UInt8}
    {limit : Nat} (h : written.length ≤ limit) :
    Follows limit code stack ⟨vars, ⟨written, none⟩⟩ (code.run stack ⟨vars, ⟨written, none⟩⟩)
      (code.run stack ⟨vars, ⟨written, some limit⟩⟩) := by
  induction code generalizing stack vars written with
  | nil => exact .fits h rfl
  | cons i code ih =>
    have hstep := i.obeys_step stack vars written limit h
    rw [Code.run_cons_apply, Code.run_cons_apply]
    generalize hi : i.step stack ⟨vars, ⟨written, none⟩⟩ = free at hstep
    generalize i.step stack ⟨vars, ⟨written, some limit⟩⟩ = limited at hstep
    cases hstep with
    | ok stack' vars' more hfits =>
      cases ih stack' vars' hfits with
      | fits hle heq => exact .fits hle heq
      | stops hlong hstops => exact .stops hlong (hstops.cons hi)
    | error fault vars' more hfits => exact .fits hfits rfl
    | full _ fault more hstate hlong he =>
      -- nothing that is written is taken back later
      have hlater : ∃ later, (stateAfter (match free with
          | .ok stack' s' => Code.run code stack' s'
          | .error fault s' => .error fault s')).sink = ⟨written ++ more ++ later, none⟩ := by
        cases free with
        | ok stack' s' =>
          obtain rfl : s' = ⟨vars, ⟨written ++ more, none⟩⟩ := hstate
          exact exists_more_of_run code stack' vars (written ++ more)
        | error fault' s' =>
          obtain rfl : s' = ⟨vars, ⟨written ++ more, none⟩⟩ := hstate
          exact ⟨[], by rw [List.append_nil]; rfl⟩
      obtain ⟨later, hlater⟩ := hlater
      have hle := (List.prefix_append (written ++ more) later).length_le
      refine .stops (hlater ▸ Nat.lt_of_lt_of_le hlong hle)
        ⟨[], i, code, rfl, stack, _, rfl, h, ?_, ?_, fault, he, ?_⟩
      · rw [hi, hstate]
        exact hlong
      · rw [hi, hstate]
      · rw [hlater, List.take_append_of_le_length hlong.le]

/-! ## Scripts -/

theorem stateAfter_map {ε σ α β : Type} (f : α → β) (p : EStateM ε σ α) (s : σ) :
    stateAfter ((f <$> p) s) = stateAfter (p s) := by
  change stateAfter (EStateM.map f p s) = _
  unfold EStateM.map
  cases p s <;> rfl

theorem withLimit_map {ε α β : Type} {f : α → β} {p : EStateM ε Session α} {s s' : Session}
    {limit : Option Nat} (h : p s' = withLimit limit (p s)) :
    (f <$> p) s' = withLimit limit ((f <$> p) s) := by
  change EStateM.map f p s' = withLimit limit (EStateM.map f p s)
  unfold EStateM.map
  rw [h]
  cases p s <;> rfl

/-- A run whose output is limited is the same as one without a limit if all of that one's output
fits.  Otherwise it ends with the first instruction that writes more, with as much of the output as
fits and with the variables that there are at that instruction. -/
theorem limited_statements (script : List Statement) (vars : Environment) (limit : Nat) :
    let code := scriptCode script
    let free := statements script ⟨vars, {}⟩
    let limited := statements script ⟨vars, { limit := some limit }⟩
    topValue <$> code.run [] = statements script ∧
      ((stateAfter free).sink.written.length ≤ limit → limited = withLimit (some limit) free) ∧
      (limit < (stateAfter free).sink.written.length →
        ∃ before i after, code = before ++ i :: after ∧
          ∃ stack m, Code.run before [] ⟨vars, {}⟩ = .ok stack m ∧
            m.sink.written.length ≤ limit ∧
            limit < (stateAfter (i.step stack m)).sink.written.length ∧
            (stateAfter (i.step stack m)).vars = m.vars ∧
            ∃ spans, limited = .error ⟨.outputFailed "sink is full", spans⟩
              ⟨m.vars, ⟨(stateAfter free).sink.written.take limit, some limit⟩⟩) := by
  intro code free limited
  have hrun : topValue <$> code.run [] = statements script := run_scriptCode script
  have hfree : free = (topValue <$> code.run []) ⟨vars, {}⟩ := by rw [hrun]
  have hlimited : limited = (topValue <$> code.run []) ⟨vars, { limit := some limit }⟩ := by
    rw [hrun]
  rw [hfree, hlimited, stateAfter_map]
  refine ⟨hrun, ?_⟩
  have hfollows := @run_limited code [] vars [] limit (Nat.zero_le limit)
  cases hfollows with
  | fits hle heq => exact ⟨fun _ => withLimit_map heq, fun hlong => absurd hle (Nat.not_le.mpr hlong)⟩
  | stops hlong hstops =>
    obtain ⟨before, i, after, hcode, stack, m, hbefore, hm, hi, hvars, _, ⟨spans, rfl⟩, heq⟩ := hstops
    refine ⟨fun hle => absurd hle (Nat.not_le.mpr hlong), fun _ => ?_⟩
    refine ⟨before, i, after, hcode, stack, m, hbefore, hm, hi, hvars, spans, ?_⟩
    change EStateM.map topValue (code.run []) _ = _
    unfold EStateM.map
    rw [heq]

/-- The second value that is printed does not fit, and `x` is not declared again. -/
example :
    stateAfter (script "let x = 7; print(x, 89); let x = 0;" ⟨{}, { limit := some 3 }⟩) =
      ⟨⟨[("x", .integer 7)]⟩, ⟨utf8Bytes "7\n8", some 3⟩⟩ := by
  decide +kernel

end MatrixScript
