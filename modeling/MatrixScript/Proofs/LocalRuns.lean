import MatrixScript.Proofs.StatementFrames

/-!
# Runs that look at the same variables

A script reads and declares only variables whose names are written in it.  So runs of one script in
two sessions that agree on these names go the same way, instruction by instruction, and leave the
other variables alone.
-/

namespace MatrixScript

open Eval

/-! ## Two runs of one step -/

section
variable {ε σ α β : Type} {Stops : ε → Prop} {J : σ → σ → Prop} {R : α → Prop} {Q : β → Prop}

/-- The same result, and a value that satisfies `R` if there is one, in states related by `J`; or
one of the two is an error that `Stops` only that run. -/
inductive Alike (Stops : ε → Prop) (J : σ → σ → Prop) (R : α → Prop) :
    EStateM.Result ε σ α → EStateM.Result ε σ α → Prop
  | ok (x : α) {s₁ s₂ : σ} (hx : R x) (hs : J s₁ s₂) : Alike Stops J R (.ok x s₁) (.ok x s₂)
  | error (e : ε) {s₁ s₂ : σ} (hs : J s₁ s₂) : Alike Stops J R (.error e s₁) (.error e s₂)
  | stopped₁ {e : ε} (he : Stops e) (s : σ) (r : EStateM.Result ε σ α) :
    Alike Stops J R (.error e s) r
  | stopped₂ {e : ε} (he : Stops e) (r : EStateM.Result ε σ α) (s : σ) :
    Alike Stops J R r (.error e s)

/-- The step goes the same way in related states, unless it stops in one of them. -/
def Together (Stops : ε → Prop) (J : σ → σ → Prop) (p : EStateM ε σ α) (R : α → Prop) : Prop :=
  ∀ s₁ s₂, J s₁ s₂ → Alike Stops J R (p s₁) (p s₂)

theorem Alike.mono {J' : σ → σ → Prop} {R' : α → Prop} {r₁ r₂ : EStateM.Result ε σ α}
    (h : Alike Stops J R r₁ r₂) (hJ : ∀ s₁ s₂, J s₁ s₂ → J' s₁ s₂) (hR : ∀ x, R x → R' x) :
    Alike Stops J' R' r₁ r₂ := by
  cases h with
  | ok x hx hs => exact .ok x (hR x hx) (hJ _ _ hs)
  | error e hs => exact .error e (hJ _ _ hs)
  | stopped₁ he s => exact .stopped₁ he s _
  | stopped₂ he r s => exact .stopped₂ he _ s

theorem Alike.stateAfter {r₁ r₂ : EStateM.Result ε σ α} (h : Alike (fun _ => False) J R r₁ r₂) :
    J (stateAfter r₁) (stateAfter r₂) := by
  cases h with
  | ok x hx hs => exact hs
  | error e hs => exact hs
  | stopped₁ he => exact he.elim
  | stopped₂ he => exact he.elim

theorem together_pure {x : α} (h : R x) : Together Stops J (pure x : EStateM ε σ α) R :=
  fun _ _ hs => .ok x h hs

theorem together_throw (e : ε) : Together Stops J (throw e : EStateM ε σ α) R :=
  fun _ _ hs => .error e hs

theorem together_ofExcept {result : Except ε α} (h : ∀ x, result = .ok x → R x) :
    Together Stops J (ofExcept result : EStateM ε σ α) R := by
  cases result with
  | ok x => exact together_pure (h x rfl)
  | error e => exact together_throw e

theorem together_get_bind {f : σ → EStateM ε σ α}
    (h : ∀ s₁ s₂, J s₁ s₂ → Alike Stops J R (f s₁ s₁) (f s₂ s₂)) :
    Together Stops J (get >>= f) R := h

theorem Together.mono {R' : α → Prop} {p : EStateM ε σ α} (hp : Together Stops J p R)
    (h : ∀ x, R x → R' x) : Together Stops J p R' :=
  fun s₁ s₂ hs => (hp s₁ s₂ hs).mono (fun _ _ => id) h

theorem Together.bind {p : EStateM ε σ α} {f : α → EStateM ε σ β} (hp : Together Stops J p R)
    (hf : ∀ x, R x → Together Stops J (f x) Q) : Together Stops J (p >>= f) Q := by
  intro s₁ s₂ hs
  have hstep := hp s₁ s₂ hs
  change Alike Stops J Q (EStateM.bind p f s₁) (EStateM.bind p f s₂)
  unfold EStateM.bind
  generalize p s₁ = r₁ at hstep
  generalize p s₂ = r₂ at hstep
  cases hstep with
  | ok x hx hs => exact hf x hx _ _ hs
  | error e hs => exact .error e hs
  | stopped₁ he s => exact .stopped₁ he s _
  | stopped₂ he r s => exact .stopped₂ he _ s

theorem Together.map {p : EStateM ε σ α} {f : α → β} (hp : Together Stops J p R)
    (hf : ∀ x, R x → Q (f x)) : Together Stops J (f <$> p) Q := by
  rw [map_eq_pure_bind]
  exact hp.bind fun x hx => together_pure (hf x hx)

theorem together_eq {p : EStateM ε σ α} : Together Stops Eq p fun _ => True := by
  rintro s _ rfl
  cases p s with
  | ok x s' => exact .ok x trivial rfl
  | error e s' => exact .error e rfl

end

/-! ## Sinks -/

def WroteSame (o₁ o₂ k₁ k₂ : Sink) : Prop :=
  ∃ more, k₁.written = o₁.written ++ more ∧ k₂.written = o₂.written ++ more

/-- Both sinks take the same number of further bytes. -/
inductive SameRoom : Sink → Sink → Prop
  | unlimited (w₁ w₂ : List UInt8) : SameRoom ⟨w₁, none⟩ ⟨w₂, none⟩
  | limited (w₁ w₂ : List UInt8) (room : Nat) :
    SameRoom ⟨w₁, some (w₁.length + room)⟩ ⟨w₂, some (w₂.length + room)⟩

def SinksInStep (o₁ o₂ k₁ k₂ : Sink) : Prop := WroteSame o₁ o₂ k₁ k₂ ∧ SameRoom k₁ k₂

theorem wroteSame_refl (o₁ o₂ : Sink) : WroteSame o₁ o₂ o₁ o₂ :=
  ⟨[], (List.append_nil _).symm, (List.append_nil _).symm⟩

theorem WroteSame.trans {o₁ o₂ k₁ k₂ l₁ l₂ : Sink} (h : WroteSame o₁ o₂ k₁ k₂)
    (h' : WroteSame k₁ k₂ l₁ l₂) : WroteSame o₁ o₂ l₁ l₂ := by
  obtain ⟨more, h₁, h₂⟩ := h
  obtain ⟨more', h₁', h₂'⟩ := h'
  refine ⟨more ++ more', ?_, ?_⟩
  · rw [h₁', h₁, List.append_assoc]
  · rw [h₂', h₂, List.append_assoc]

theorem Sink.write_cases (text : String) (k : Sink) :
    (∃ k', Sink.write text k = .ok () k' ∧ k'.written = k.written ++ utf8Bytes text) ∨
      ∃ k', Sink.write text k = .error (.output "sink is full") k' := by
  unfold Sink.write
  dsimp only
  split
  · exact .inl ⟨_, rfl, rfl⟩
  · split
    · exact .inl ⟨_, rfl, rfl⟩
    · exact .inr ⟨_, rfl⟩

/-- Sinks with different room. -/
theorem together_write (o₁ o₂ : Sink) (text : String) :
    Together IsFull (WroteSame o₁ o₂) (Sink.write text) fun _ => True := by
  intro k₁ k₂ hk
  rcases Sink.write_cases text k₁ with ⟨l₁, h₁, hl₁⟩ | ⟨l₁, h₁⟩
  · rcases Sink.write_cases text k₂ with ⟨l₂, h₂, hl₂⟩ | ⟨l₂, h₂⟩
    · rw [h₁, h₂]
      exact .ok () trivial (hk.trans ⟨_, hl₁, hl₂⟩)
    · rw [h₂]
      exact .stopped₂ (show IsFull _ from rfl) _ l₂
  · rw [h₁]
    exact .stopped₁ (show IsFull _ from rfl) l₁ _

theorem SameRoom.alike_write {k₁ k₂ : Sink} (h : SameRoom k₁ k₂) (text : String) :
    Alike (fun _ => False) (SinksInStep k₁ k₂) (fun _ => True) (Sink.write text k₁)
      (Sink.write text k₂) := by
  cases h with
  | unlimited w₁ w₂ => exact .ok () trivial ⟨⟨utf8Bytes text, rfl, rfl⟩, .unlimited _ _⟩
  | limited w₁ w₂ room =>
    unfold Sink.write
    simp only [List.length_append, Nat.add_le_add_iff_left]
    split
    · next hfits =>
      refine .ok () trivial ⟨⟨utf8Bytes text, rfl, rfl⟩, ?_⟩
      have hleft (w : List UInt8) :
          w.length + room = (w ++ utf8Bytes text).length + (room - (utf8Bytes text).length) := by
        rw [List.length_append]
        omega
      rw [hleft w₁, hleft w₂]
      exact .limited _ _ _
    · next hlong =>
      have htake (w : List UInt8) :
          (w ++ utf8Bytes text).take (w.length + room) = w ++ (utf8Bytes text).take room :=
        List.take_length_add_append room
      rw [htake w₁, htake w₂]
      refine .error _ ⟨⟨(utf8Bytes text).take room, rfl, rfl⟩, ?_⟩
      have hfull (w : List UInt8) :
          w.length + room = (w ++ (utf8Bytes text).take room).length + 0 := by
        rw [List.length_append, List.length_take]
        omega
      rw [hfull w₁, hfull w₂]
      exact .limited _ _ 0

theorem together_write_of_sameRoom (o₁ o₂ : Sink) (text : String) :
    Together (fun _ => False) (SinksInStep o₁ o₂) (Sink.write text) fun _ => True :=
  fun _ _ hk => (hk.2.alike_write text).mono (fun _ _ hl => ⟨hk.1.trans hl.1, hl.2⟩) fun _ => id

/-- Writing goes the same way in related sinks, up to errors that stop one run only. -/
structure WritesAlike (K : Sink → Sink → Prop) (Stops : InvocationError → Prop)
    (Halts : Fault → Prop) : Prop where
  write : ∀ text, Together Stops K (Sink.write text) fun _ => True
  locate : ∀ callee args e, Stops e → Halts (InvocationError.locate callee args e)

theorem writesAlike (o₁ o₂ : Sink) : WritesAlike (WroteSame o₁ o₂) IsFull OutputFailed :=
  ⟨together_write o₁ o₂, fun callee args _ he =>
    ⟨[args.foldl Span.hull callee], congrArg (InvocationError.locate callee args) he⟩⟩

theorem writesAlike_of_sameRoom (o₁ o₂ : Sink) :
    WritesAlike (SinksInStep o₁ o₂) (fun _ => False) fun _ => False :=
  ⟨together_write_of_sameRoom o₁ o₂, fun _ _ _ => id⟩

theorem writesAlike_eq : WritesAlike Eq (fun _ => False) fun _ => False :=
  ⟨fun _ => together_eq, fun _ _ _ => id⟩

/-! ## Sessions that agree on names -/

namespace Value

/-- A symbol is one of the names, or stands for something that cannot be declared. -/
def Known (names : List String) : Value → Prop
  | .symbol name => name ∈ names ∨ isReserved name = true
  | .integer _ | .rational _ | .matrix _ | .unit => True

theorem Lawful.known {v : Value} {names : List String} (h : v.Lawful) : v.Known names := by
  cases v with
  | symbol name => exact .inr h.isReserved
  | integer n => trivial
  | rational r => trivial
  | matrix m => trivial
  | unit => trivial

end Value

/-- Two sessions in the middle of runs that began in `o₁` and `o₂`.  They agree on the names, have
changed no other variable, and have sinks related by `K`. -/
structure Session.Paired (names : List String) (K : Sink → Sink → Prop)
    (o₁ o₂ s₁ s₂ : Session) : Prop where
  agree : ∀ name ∈ names, s₁.vars.get? name = s₂.vars.get? name
  known : ∀ name ∈ names, ∀ v, s₁.vars.get? name = some v → v.Known names
  kept₁ : ∀ name ∉ names, s₁.vars.get? name = o₁.vars.get? name
  kept₂ : ∀ name ∉ names, s₂.vars.get? name = o₂.vars.get? name
  sinks : K s₁.sink s₂.sink

section
variable {names : List String} {K : Sink → Sink → Prop} {Stops : InvocationError → Prop}
  {Halts : Fault → Prop} {o₁ o₂ : Session}

open Session

/-! ## Invocations -/

theorem together_declare {name : String} {value : Value}
    (hname : name ∈ names ∨ isReserved name = true) (hvalue : value.Known names) :
    Together Stops (Paired names K o₁ o₂) (declare name value) fun _ => True := by
  intro s₁ s₂ hs
  rw [declare_apply, declare_apply]
  split
  · exact .error _ hs
  · next hfree =>
    have hname : name ∈ names := hname.resolve_right hfree
    have hother {other : String} (h : other ∉ names) : other ≠ name :=
      (ne_of_mem_of_not_mem hname h).symm
    refine .ok () trivial ⟨fun other hmem => ?_, fun other hmem v => ?_, fun other hmem => ?_,
      fun other hmem => ?_, hs.sinks⟩
    · by_cases h : other = name
      · rw [h, Environment.get?_insert_self, Environment.get?_insert_self]
      · rw [Environment.get?_insert_of_ne _ _ _ h, Environment.get?_insert_of_ne _ _ _ h]
        exact hs.agree other hmem
    · by_cases h : other = name
      · rw [h, Environment.get?_insert_self]
        intro hv
        cases hv
        exact hvalue
      · rw [Environment.get?_insert_of_ne _ _ _ h]
        exact hs.known other hmem v
    · rw [Environment.get?_insert_of_ne _ _ _ (hother hmem)]
      exact hs.kept₁ other hmem
    · rw [Environment.get?_insert_of_ne _ _ _ (hother hmem)]
      exact hs.kept₂ other hmem

theorem together_declareFirst {args : List Value} (h : ∀ v ∈ args, v.Known names) :
    Together Stops (Paired names K o₁ o₂) (declareFirst args) (Value.Known names) := by
  have htrue : Together Stops (Paired names K o₁ o₂)
      (ofExcept ((Arity.exact 2).check "init" args.length) : EStateM InvocationError Session Unit)
      fun _ => True := together_ofExcept fun _ _ => trivial
  refine htrue.bind fun _ _ => ?_
  split
  · next name value rest =>
    obtain ⟨hname, hrest⟩ := List.forall_mem_cons.mp h
    have hvalue := hrest value List.mem_cons_self
    exact (together_declare hname hvalue).bind fun _ _ => together_pure hvalue
  · exact together_throw _

theorem together_onSink {α : Type} {p : EStateM InvocationError Sink α} {R : α → Prop}
    (h : Together Stops K p R) : Together Stops (Paired names K o₁ o₂) (onSink p) R := by
  intro s₁ s₂ hs
  have hstep := h s₁.sink s₂.sink hs.sinks
  unfold onSink
  generalize p s₁.sink = r₁ at hstep
  generalize p s₂.sink = r₂ at hstep
  cases hstep with
  | ok x hx hk => exact .ok x hx ⟨hs.agree, hs.known, hs.kept₁, hs.kept₂, hk⟩
  | error e hk => exact .error e ⟨hs.agree, hs.known, hs.kept₁, hs.kept₂, hk⟩
  | stopped₁ he k => exact .stopped₁ he _ _
  | stopped₂ he r k => exact .stopped₂ he _ _

variable (hwrite : WritesAlike K Stops Halts)

include hwrite

theorem together_printAll (values : List Value) :
    Together Stops K (printAll values) fun _ => True := by
  induction values with
  | nil => exact together_pure trivial
  | cons v values ih => exact (hwrite.write _).bind fun _ _ => ih

theorem together_apply (b : Builtin) (args : List Value) :
    Together Stops K (b.apply args) Value.Lawful := by
  by_cases hb : b = .print
  · rw [hb]
    exact (together_printAll hwrite args).bind fun _ _ => together_pure trivial
  · obtain ⟨result, hresult⟩ := Builtin.exists_apply_eq hb args
    rw [hresult]
    refine together_ofExcept fun v hv => ?_
    have hlawful := b.upholds_apply args {} trivial
    rw [hresult, hv] at hlawful
    exact hlawful.1

theorem together_invoke (name : String) {args : List Value} (h : ∀ v ∈ args, v.Known names) :
    Together Stops (Paired names K o₁ o₂) (invoke name args) (Value.Known names) := by
  unfold invoke
  split
  · exact together_declareFirst h
  · split
    · next b _ =>
      exact together_onSink ((together_apply hwrite b args).mono fun _ => Value.Lawful.known)
    · exact together_throw _

omit hwrite

/-! ## Instructions -/

theorem together_located {α : Type} {J : Session → Session → Prop} {R : α → Prop}
    {p : EStateM InvocationError Session α} {callee : Span} {args : List Span}
    (hlocate : ∀ e, Stops e → Halts (InvocationError.locate callee args e))
    (h : Together Stops J p R) : Together Halts J (located callee args p) R := by
  intro s₁ s₂ hs
  have hstep := h s₁ s₂ hs
  unfold located EStateM.adaptExcept
  generalize p s₁ = r₁ at hstep
  generalize p s₂ = r₂ at hstep
  cases hstep with
  | ok x hx hs => exact .ok x hx hs
  | error e hs => exact .error _ hs
  | stopped₁ he s => exact .stopped₁ (hlocate _ he) s _
  | stopped₂ he r s => exact .stopped₂ (hlocate _ he) _ s

theorem together_sign {op : Located UnaryOp} {x : Value} {span : Span} (hx : x.Known names) :
    Together Halts (Paired names K o₁ o₂) (sign op x span) (Value.Known names) := by
  unfold sign
  split
  · exact together_throw _
  · exact together_pure hx
  · next result _ hneg =>
    have hlocate (e : InvocationError) (h : False) : Halts (e.locate op.span [span]) := h.elim
    refine together_located hlocate (together_ofExcept fun y hy => ?_)
    rw [mapError_eq_ok_iff.mp hy] at hneg
    exact (Value.lawful_of_neg hneg).known

theorem together_resolve {name : Located String} (hname : name.value ∈ names) :
    Together Halts (Paired names K o₁ o₂) (resolve name) (Value.Known names) := by
  refine together_get_bind fun s₁ s₂ hs => ?_
  rw [← hs.agree _ hname]
  cases hget : s₁.vars.get? name.value with
  | some value => exact .ok value (hs.known _ hname value hget) hs
  | none =>
    dsimp only
    split
    · exact .ok _ (.inl hname) hs
    · exact .error _ hs

theorem together_matrixOfRows {J : Session → Session → Prop} (whole : Span)
    (rowSpans : List Span) (rows : Grid) :
    Together Halts J (matrixOfRows whole rowSpans rows) (Value.Known names) := by
  unfold matrixOfRows
  split
  · exact together_pure trivial
  · exact together_throw _
  · exact together_throw _

theorem together_elementOf {J : Session → Session → Prop} (span : Span) (value : Value) :
    Together Halts J (elementOf span value) fun _ => True := by
  unfold elementOf
  split
  · exact together_pure trivial
  · exact together_throw _

def Instruction.Uses (names : List String) : Instruction → Prop
  | .push v => v.value.Known names
  | .load name => name.value ∈ names
  | .declare name => name.value ∈ names
  | .binary _ | .unary _ | .place _ | .element | .matrix _ _ | .invoke _ _ _ | .fail _ _ => True

def Stack.Known (names : List String) (stack : Stack) : Prop := ∀ v ∈ stack, v.value.Known names

theorem Stack.Known.latest {stack : Stack} (h : stack.Known names) (n : Nat) :
    ∀ v ∈ stack.latest n, v.Known names := by
  intro v hv
  obtain ⟨x, hx, rfl⟩ := List.mem_map.mp hv
  exact h x (List.mem_of_mem_take (List.mem_reverse.mp hx))

theorem Stack.Known.drop {stack : Stack} (h : stack.Known names) (n : Nat) :
    Stack.Known names (stack.drop n) :=
  fun v hv => h v (List.mem_of_mem_drop hv)

theorem Stack.Known.push {stack : Stack} {v : Value} {span : Span} (h : stack.Known names)
    (hv : v.Known names) : Stack.Known names (⟨v, span⟩ :: stack) :=
  List.forall_mem_cons.mpr ⟨hv, h⟩

include hwrite

theorem Instruction.together_step {i : Instruction} (hi : i.Uses names) {stack : Stack}
    (hstack : stack.Known names) :
    Together Halts (Paired names K o₁ o₂) (i.step stack) (Stack.Known names) := by
  have hstuck : Together Halts (Paired names K o₁ o₂)
      (Eval.fail .malformedExpression [] : Eval Stack) (Stack.Known names) := together_throw _
  cases i with
  | push v => exact together_pure (hstack.push hi)
  | load name => exact (together_resolve hi).bind fun _ hv => together_pure (hstack.push hv)
  | binary op =>
    match stack with
    | y :: x :: stack =>
      obtain ⟨hy, hrest⟩ := List.forall_mem_cons.mp hstack
      obtain ⟨hx, hrest⟩ := List.forall_mem_cons.mp hrest
      have hargs : ∀ v ∈ [x.value, y.value], v.Known names := by simp [hx, hy]
      have hinvoke : Together Stops (Paired names K o₁ o₂) _ _ :=
        together_invoke hwrite op.value.symbol hargs
      exact (together_located (hwrite.locate _ _) hinvoke).bind fun _ hv =>
        together_pure (Stack.Known.push hrest hv)
    | [] | [_] => exact hstuck
  | unary op =>
    match stack with
    | x :: stack =>
      obtain ⟨hx, hrest⟩ := List.forall_mem_cons.mp hstack
      exact (together_sign hx).bind fun _ hv => together_pure (Stack.Known.push hrest hv)
    | [] => exact hstuck
  | place span =>
    match stack with
    | x :: stack =>
      obtain ⟨hx, hrest⟩ := List.forall_mem_cons.mp hstack
      exact together_pure (Stack.Known.push hrest hx)
    | [] => exact hstuck
  | element =>
    match stack with
    | x :: stack =>
      obtain ⟨-, hrest⟩ := List.forall_mem_cons.mp hstack
      exact (together_elementOf _ _).bind fun _ _ => together_pure (Stack.Known.push hrest trivial)
    | [] => exact hstuck
  | matrix span rows =>
    exact (together_matrixOfRows _ _ _).bind fun _ hv => together_pure ((hstack.drop _).push hv)
  | invoke callee args span =>
    have hinvoke : Together Stops (Paired names K o₁ o₂) _ _ :=
      together_invoke hwrite callee.value (hstack.latest args.length)
    exact (together_located (hwrite.locate _ _) hinvoke).bind fun _ hv =>
      together_pure ((hstack.drop _).push hv)
  | declare name =>
    match stack with
    | x :: stack =>
      obtain ⟨hx, -⟩ := List.forall_mem_cons.mp hstack
      have hdeclare : Together Stops (Paired names K o₁ o₂) _ _ := together_declare (.inl hi) hx
      exact (together_located (hwrite.locate _ _) hdeclare).bind fun _ _ => together_pure hstack
    | [] => exact hstuck
  | fail cause spans => exact together_throw _

theorem Code.together_run {code : Code} (hcode : ∀ i ∈ code, i.Uses names) {stack : Stack}
    (hstack : stack.Known names) :
    Together Halts (Paired names K o₁ o₂) (code.run stack) (Stack.Known names) := by
  induction code generalizing stack with
  | nil => exact together_pure hstack
  | cons i code ih =>
    obtain ⟨hi, hcode⟩ := List.forall_mem_cons.mp hcode
    rw [Code.run_cons]
    exact (i.together_step hwrite hi hstack).bind fun _ hstack' => ih hcode hstack'

end

/-! ## The names of a script -/

def Item.symbol? : Item Operand → Option String
  | .operand (.symbol s) => some s.value
  | .operand _ | .binary _ | .unary _ | .opening _ | .closing _ => none

def symbolNames (es : List Expression) : List String :=
  es.flatMap fun e => e.items.filterMap Item.symbol?

namespace Statement

def declaredNames : Statement → List String
  | .declaration d => [d.name.value]
  | .call _ => []

/-- The names written in the statement other than those of functions. -/
def names (s : Statement) : List String := s.declaredNames ++ symbolNames s.expressions

end Statement

def scriptNames (script : List Statement) : List String := script.flatMap Statement.names

section
variable {names : List String} {es : List Expression}

theorem Instruction.ComesFrom.uses {i : Instruction} (hi : i.ComesFrom es)
    (h : symbolNames es ⊆ names) : i.Uses names := by
  rcases hi with hplain | ⟨e, he, x, hx, hemits⟩
  · cases i with
    | push v => exact hplain.elim
    | load name => exact hplain.elim
    | declare name => exact hplain.elim
    | _ => trivial
  · have hsymbol (s : Located String) (hs : x = .symbol s) : s.value ∈ names :=
      h (List.mem_flatMap.mpr ⟨e, he, List.mem_filterMap.mpr ⟨_, hs ▸ hx, rfl⟩⟩)
    cases hemits with
    | number n => trivial
    | load s => exact hsymbol s rfl
    | declared s span => exact .inl (hsymbol s rfl)
    | invoke c => trivial

theorem Statement.uses_code (s : Statement) (h : s.names ⊆ names) :
    ∀ i ∈ s.code, i.Uses names := by
  obtain ⟨hdeclared, hsymbols⟩ := List.append_subset.mp h
  cases s with
  | declaration d =>
    refine List.forall_mem_append.mpr ⟨fun i hi => ?_, List.forall_mem_singleton.mpr ?_⟩
    · exact (comesFrom_expressionCode d.value i hi).uses hsymbols
    · exact hdeclared List.mem_cons_self
  | call c =>
    obtain ⟨name, args, span, parens⟩ := c
    refine List.forall_mem_append.mpr ⟨fun i hi => ?_, List.forall_mem_singleton.mpr trivial⟩
    exact (comesFrom_argumentsCode _ args i hi).uses hsymbols

theorem uses_scriptCode (script : List Statement) :
    ∀ i ∈ scriptCode script, i.Uses (scriptNames script) := by
  intro i hi
  obtain ⟨s, hs, hi⟩ := List.mem_flatMap.mp hi
  exact s.uses_code (fun name hname => List.mem_flatMap.mpr ⟨s, hs, hname⟩) i hi

end

/-! ## Scripts -/

namespace Session

variable {names : List String} {K : Sink → Sink → Prop} {s₁ s₂ : Session}

theorem Lawful.paired (h : s₁.Lawful)
    (hagree : ∀ name ∈ names, s₁.vars.get? name = s₂.vars.get? name) (hsinks : K s₁.sink s₂.sink) :
    Paired names K s₁ s₂ s₁ s₂ := by
  refine ⟨hagree, fun name _ v hget => ?_, fun _ _ => rfl, fun _ _ => rfl, hsinks⟩
  obtain ⟨b, hb, rfl⟩ := Environment.mem_of_get? hget
  exact (h.values b hb).known

end Session

theorem together_statements (script : List Statement) {K : Sink → Sink → Prop}
    {Stops : InvocationError → Prop} {Halts : Fault → Prop} {o₁ o₂ : Session}
    (hwrite : WritesAlike K Stops Halts) :
    Together Halts (Session.Paired (scriptNames script) K o₁ o₂) (statements script)
      fun _ => True := by
  rw [← run_scriptCode]
  exact (Code.together_run hwrite (uses_scriptCode script) (List.forall_mem_nil _)).map
    fun _ _ => trivial

/-- Whatever the sink takes, the variables that are not named stay. -/
theorem get?_stateAfter_statements (script : List Statement) {s : Session} (h : s.Reachable)
    {name : String} (hname : name ∉ scriptNames script) :
    (stateAfter (statements script s)).vars.get? name = s.vars.get? name := by
  -- the run is compared with itself, so the sinks are the same one
  have hs : Session.Paired (scriptNames script) Eq s s s s := h.lawful.paired (fun _ _ => rfl) rfl
  exact (together_statements script writesAlike_eq s s hs).stateAfter.kept₁ name hname

def AgreeAfter (script : List Statement) (s₁ s₂ t₁ t₂ : Session) : Prop :=
  (∀ name ∈ scriptNames script, t₁.vars.get? name = t₂.vars.get? name) ∧
    WroteSame s₁.sink s₂.sink t₁.sink t₂.sink

/-- Two sessions that agree on the names written in a script run it in the same way and agree on
them afterwards, unless a sink gets full in one of the runs; and that does not happen to one alone
if both sinks take the same number of bytes.  Other variables stay as they are. -/
theorem statements_local (script : List Statement) {s₁ s₂ : Session} (h₁ : s₁.Reachable)
    (h₂ : s₂.Reachable)
    (hagree : ∀ name ∈ scriptNames script, s₁.vars.get? name = s₂.vars.get? name) :
    Alike OutputFailed (AgreeAfter script s₁ s₂) (fun _ => True)
        (statements script s₁) (statements script s₂) ∧
      (SameRoom s₁.sink s₂.sink →
        Alike (fun _ => False) (AgreeAfter script s₁ s₂) (fun _ => True)
          (statements script s₁) (statements script s₂)) ∧
      ∀ name ∉ scriptNames script,
        (stateAfter (statements script s₁)).vars.get? name = s₁.vars.get? name ∧
        (stateAfter (statements script s₂)).vars.get? name = s₂.vars.get? name := by
  refine ⟨?_, fun hroom => ?_, fun name hname => ⟨get?_stateAfter_statements script h₁ hname,
    get?_stateAfter_statements script h₂ hname⟩⟩
  · have hs : Session.Paired _ (WroteSame s₁.sink s₂.sink) s₁ s₂ s₁ s₂ :=
      h₁.lawful.paired hagree (wroteSame_refl _ _)
    have hrun := together_statements script (writesAlike s₁.sink s₂.sink) s₁ s₂ hs
    exact hrun.mono (fun _ _ ht => ⟨ht.agree, ht.sinks⟩) fun _ => id
  · have hs : Session.Paired _ (SinksInStep s₁.sink s₂.sink) s₁ s₂ s₁ s₂ :=
      h₁.lawful.paired hagree ⟨wroteSame_refl _ _, hroom⟩
    have hrun := together_statements script (writesAlike_of_sameRoom s₁.sink s₂.sink) s₁ s₂ hs
    exact hrun.mono (fun _ _ ht => ⟨ht.agree, ht.sinks.1⟩) fun _ => id

/-- `print(init(y, x));` after runs that have declared `x` alike and `y` and `z` not. -/
theorem statements_local_of_inner_init :
    let y : Expression := ⟨[.operand (.symbol ⟨"y", ⟨11, 12⟩⟩)], ⟨11, 12⟩⟩
    let x : Expression := ⟨[.operand (.symbol ⟨"x", ⟨14, 15⟩⟩)], ⟨14, 15⟩⟩
    let init : Expression :=
      ⟨[.operand (.call ⟨⟨"init", ⟨6, 10⟩⟩, [y, x], ⟨6, 16⟩, ⟨10, 16⟩⟩)], ⟨6, 16⟩⟩
    let script : List Statement := [.call ⟨⟨"print", ⟨0, 5⟩⟩, [init], ⟨0, 17⟩, ⟨5, 17⟩⟩]
    let s₁ := stateAfter (Eval.script "let x = 2; let z = 5;" {})
    let s₂ := stateAfter (Eval.script "print(1); let z = 6; let x = 2;" {})
    s₁.Reachable ∧ s₂.Reachable ∧ scriptNames script = ["y", "x"] ∧
      ∃ t₁ t₂, statements script s₁ = .ok .unit t₁ ∧ statements script s₂ = .ok .unit t₂ ∧
        t₁.vars.get? "y" = some (.integer 2) ∧ AgreeAfter script s₁ s₂ t₁ t₂ ∧
        t₁.vars.get? "z" = some (.integer 5) ∧ t₂.vars.get? "z" = some (.integer 6) := by
  intro y x init script s₁ s₂
  have h₁ : s₁.Reachable := .run _ (.start {})
  have h₂ : s₂.Reachable := .run _ (.start {})
  have hnames : scriptNames script = ["y", "x"] := by decide
  have hagree : ∀ name ∈ scriptNames script, s₁.vars.get? name = s₂.vars.get? name := by
    decide +kernel
  have hz : "z" ∉ scriptNames script := by decide
  obtain ⟨-, hrun, hkept⟩ := statements_local script h₁ h₂ hagree
  have hroom : SameRoom s₁.sink s₂.sink := by
    have hs₁ : s₁.sink = ⟨[], none⟩ := by decide +kernel
    have hs₂ : s₂.sink = ⟨utf8Bytes "1\n", none⟩ := by decide +kernel
    rw [hs₁, hs₂]
    exact .unlimited _ _
  obtain ⟨hz₁, hz₂⟩ := hkept "z" hz
  have hok₁ : statements script s₁ = .ok .unit (stateAfter (statements script s₁)) := by
    decide +kernel
  have hok₂ : statements script s₂ = .ok .unit (stateAfter (statements script s₂)) := by
    decide +kernel
  refine ⟨h₁, h₂, hnames, _, _, hok₁, hok₂, by decide +kernel, (hrun hroom).stateAfter, ?_, ?_⟩
  · exact hz₁.trans (by decide +kernel)
  · exact hz₂.trans (by decide +kernel)

/-- `print(1);` with room for one byte and without a limit. -/
theorem runs_differ_of_room :
    let one : Expression := ⟨[.operand (.number ⟨1, ⟨6, 7⟩⟩)], ⟨6, 7⟩⟩
    let script : List Statement := [.call ⟨⟨"print", ⟨0, 5⟩⟩, [one], ⟨0, 8⟩, ⟨5, 8⟩⟩]
    let s₁ : Session := {}
    let s₂ : Session := { sink := { limit := some 1 } }
    s₁.Reachable ∧ s₂.Reachable ∧
      (∀ name ∈ scriptNames script, s₁.vars.get? name = s₂.vars.get? name) ∧
      (∃ t₁, statements script s₁ = .ok .unit t₁ ∧ t₁.sink.written = utf8Bytes "1\n") ∧
      ∃ t₂, statements script s₂ = .error ⟨.outputFailed "sink is full", [⟨0, 7⟩]⟩ t₂ ∧
        t₂.sink.written = utf8Bytes "1" := by
  intro one script s₁ s₂
  have hok : statements script s₁ = .ok .unit (stateAfter (statements script s₁)) := by
    decide +kernel
  have herror : statements script s₂ = .error ⟨.outputFailed "sink is full", [⟨0, 7⟩]⟩
      (stateAfter (statements script s₂)) := by decide +kernel
  exact ⟨.start _, .start _, by decide, ⟨_, hok, by decide +kernel⟩, _, herror, by decide +kernel⟩

end MatrixScript
