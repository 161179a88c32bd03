import MatrixScript.Proofs.FaultSpans
import MatrixScript.Proofs.LegiblePrograms
import MatrixScript.Proofs.MalformedExpressions
import MatrixScript.Proofs.MatrixShapes

/-!
# Lawful sessions

What holds of the values that are stored and returned, whatever is run: whole numbers are integers,
a symbol stands for a function, and no variable hides a builtin.  The name that `init` is given never
becomes a value.
-/

namespace MatrixScript

/-! ## Lawful values -/

/-- In lowest terms; so zero is `0/1`. -/
structure Fraction.Canonical (r : Fraction) : Prop where
  den_pos : 0 < r.den
  coprime : r.num.natAbs.Coprime r.den

theorem Fraction.canonical (r : Fraction) : r.Canonical := ⟨r.den_pos, r.reduced⟩

def Builtin.IsFunction : Builtin → Prop
  | .operator _ => False
  | .print | .transpose | .reduction _ => True

namespace Value

def Lawful : Value → Prop
  | .integer _ | .unit => True
  | .rational r => 1 < r.den ∧ r.Canonical
  | .matrix m =>
    0 < m.height ∧ 0 < m.width ∧ ∀ row ∈ m.rows, row.length = m.width ∧ ∀ x ∈ row, x.Canonical
  | .symbol name => name = "init" ∨ ∃ b : Builtin, b.IsFunction ∧ Builtin.ofName? name = some b

theorem lawful_scalar (r : Fraction) : (scalar r).Lawful := by
  unfold scalar Fraction.toInt64? Fraction.isInteger
  by_cases hden : r.den = 1
  · simp [hden, Lawful]
  · have hpos := r.den_pos
    have hlt : 1 < r.den := by omega
    simpa [hden, Lawful] using ⟨hlt, r.canonical⟩

theorem lawful_matrix (m : RatMatrix) : (Value.matrix m).Lawful :=
  ⟨m.height_pos, m.width_pos, fun row hrow => ⟨m.rectangular row hrow, fun x _ => x.canonical⟩⟩

theorem not_isName_symbol (op : BinaryOp) : ¬ IsName op.symbol := by
  cases op <;> decide

theorem lawful_symbol {name : String} (hname : IsName name) (h : isReserved name = true) :
    (Value.symbol name).Lawful := by
  rw [isReserved, Bool.or_eq_true] at h
  rcases h with h | h
  · obtain ⟨b, hb⟩ := Option.isSome_iff_exists.mp h
    refine .inr ⟨b, ?_, hb⟩
    cases b with
    | operator op =>
      have hop : op.symbol = name := by simpa [Builtin.name] using List.find?_some hb
      exact absurd (hop ▸ hname) (not_isName_symbol op)
    | print => trivial
    | transpose => trivial
    | reduction r => trivial
  · have hword : name = "init" ∨ name = "let" := by simpa [declarationWords] using h
    exact .inl (hword.resolve_right hname.1)

theorem Lawful.isReserved {name : String} (h : (Value.symbol name).Lawful) :
    isReserved name = true := by
  rcases h with rfl | ⟨b, -, hb⟩
  · simp [MatrixScript.isReserved, declarationWords]
  · simp [MatrixScript.isReserved, hb]

theorem lawful_of_neg {x y : Value} (h : x.neg? = some (.ok y)) : y.Lawful := by
  cases x with
  | integer n =>
    obtain ⟨r, -, rfl⟩ := map_eq_ok_iff.mp (Option.some.inj h)
    exact lawful_scalar r
  | rational r =>
    obtain ⟨r, -, rfl⟩ := map_eq_ok_iff.mp (Option.some.inj h)
    exact lawful_scalar r
  | matrix m =>
    obtain ⟨n, -, rfl⟩ := map_eq_ok_iff.mp (Option.some.inj h)
    exact lawful_matrix n
  | symbol name => cases h
  | unit => cases h

end Value

theorem BinaryOp.lawful_of_onValues {op : BinaryOp} {x y v : Value}
    (h : op.onValues? x y = some (.ok v)) : v.Lawful := by
  have hmatrix {result : Except MatrixError RatMatrix} (h : Value.matrix <$> result = .ok v) :
      v.Lawful := by
    obtain ⟨m, -, rfl⟩ := map_eq_ok_iff.mp h
    exact Value.lawful_matrix m
  unfold onValues? at h
  split at h
  · exact hmatrix (Option.some.inj h)
  · exact hmatrix (Option.some.inj h)
  · exact hmatrix (Option.some.inj h)
  · obtain ⟨factor, -, h⟩ := Option.map_eq_some_iff.mp h
    exact hmatrix h
  · obtain ⟨factor, -, h⟩ := Option.map_eq_some_iff.mp h
    exact hmatrix h
  · obtain ⟨divisor, -, h⟩ := Option.map_eq_some_iff.mp h
    exact hmatrix h
  · split at h
    · obtain ⟨r, -, rfl⟩ := map_eq_ok_iff.mp (Option.some.inj h)
      exact Value.lawful_scalar r
    · cases h

theorem Reduction.Result.lawful_toValue (r : Reduction.Result) : r.toValue.Lawful := by
  cases r with
  | matrix m => exact Value.lawful_matrix m
  | scalar x => exact Value.lawful_scalar x
  | count n => trivial

/-! ## Lawful sessions -/

structure Session.Lawful (s : Session) : Prop where
  values : ∀ b ∈ s.vars.bindings, b.2.Lawful
  names : ∀ b ∈ s.vars.bindings, IsName b.1 ∧ isReserved b.1 = false

theorem Environment.forall_insertInto {P : String × Value → Prop} {name : String} {value : Value}
    {bindings : List (String × Value)} (h : ∀ b ∈ bindings, P b) (hnew : P (name, value)) :
    ∀ b ∈ insertInto name value bindings, P b := by
  induction bindings with
  | nil => exact List.forall_mem_singleton.mpr hnew
  | cons old bindings ih =>
    obtain ⟨hold, hrest⟩ := List.forall_mem_cons.mp h
    rw [insertInto]
    split
    · exact List.forall_mem_cons.mpr ⟨hnew, hrest⟩
    · exact List.forall_mem_cons.mpr ⟨hold, ih hrest⟩

theorem Environment.mem_of_get? {env : Environment} {name : String} {value : Value}
    (h : env.get? name = some value) : ∃ b ∈ env.bindings, b.2 = value := by
  obtain ⟨before, after, hb, -⟩ := List.lookup_eq_some_iff.mp h
  exact ⟨(name, value), by simp [hb], rfl⟩

/-! ## Steps that uphold a law -/

section
variable {ε σ α β : Type} {I : σ → Prop} {R : α → Prop} {Q : β → Prop}

def Leaves (I : σ → Prop) (R : α → Prop) : EStateM.Result ε σ α → Prop
  | .ok x s => R x ∧ I s
  | .error _ s => I s

def Upholds (I : σ → Prop) (p : EStateM ε σ α) (R : α → Prop) : Prop :=
  ∀ s, I s → Leaves I R (p s)

theorem upholds_pure {x : α} (h : R x) : Upholds I (pure x : EStateM ε σ α) R := by
  intro s hs
  exact ⟨h, hs⟩

theorem upholds_throw (e : ε) : Upholds I (throw e : EStateM ε σ α) R := by
  intro s hs
  exact hs

theorem upholds_get : Upholds I (get : EStateM ε σ σ) I := by
  intro s hs
  exact ⟨hs, hs⟩

theorem upholds_ofExcept {result : Except ε α} (h : ∀ x, result = .ok x → R x) :
    Upholds I (ofExcept result : EStateM ε σ α) R := by
  cases result with
  | ok x => exact upholds_pure (h x rfl)
  | error e => exact upholds_throw e

theorem Upholds.mono {R' : α → Prop} {p : EStateM ε σ α} (hp : Upholds I p R)
    (h : ∀ x, R x → R' x) : Upholds I p R' := by
  intro s hs
  have hstep := hp s hs
  cases hr : p s with
  | ok x s' =>
    rw [hr] at hstep
    exact ⟨h x hstep.1, hstep.2⟩
  | error e s' =>
    rw [hr] at hstep
    exact hstep

theorem Upholds.bind {p : EStateM ε σ α} {f : α → EStateM ε σ β} (hp : Upholds I p R)
    (hf : ∀ x, R x → Upholds I (f x) Q) : Upholds I (p >>= f) Q := by
  intro s hs
  have hstep := hp s hs
  change Leaves I Q (EStateM.bind p f s)
  unfold EStateM.bind
  cases h : p s with
  | ok x s' =>
    rw [h] at hstep
    exact hf x hstep.1 s' hstep.2
  | error e s' =>
    rw [h] at hstep
    exact hstep

end

namespace Session

variable {α : Type} {R : α → Prop}

theorem upholds_onSink {ε : Type} {p : EStateM ε Sink α} (h : Upholds (fun _ => True) p R) :
    Upholds Session.Lawful (onSink p) R := by
  intro s hs
  have hstep := h s.sink trivial
  unfold onSink
  cases hp : p s.sink with
  | ok x sink =>
    rw [hp] at hstep
    exact ⟨hstep.1, hs.values, hs.names⟩
  | error e sink => exact ⟨hs.values, hs.names⟩

theorem upholds_declare {name : String} {value : Value}
    (hname : IsName name ∨ isReserved name = true) (hvalue : value.Lawful) :
    Upholds Session.Lawful (declare name value) fun _ => True := by
  unfold declare
  split
  · exact upholds_throw _
  · next hr =>
    intro s hs
    have hnew : IsName name ∧ isReserved name = false :=
      ⟨hname.resolve_right hr, Bool.eq_false_iff.mpr hr⟩
    exact ⟨trivial, Environment.forall_insertInto hs.values hvalue,
      Environment.forall_insertInto hs.names hnew⟩

/-- The arguments of a call, where the first one of `init` may be a name. -/
def Arguments (declares : Bool) : List Value → Prop
  | [] => True
  | v :: vs =>
    (v.Lawful ∨ declares = true ∧ ∃ name, IsName name ∧ v = .symbol name) ∧ ∀ w ∈ vs, w.Lawful

theorem upholds_declareFirst {args : List Value} (h : Arguments true args) :
    Upholds Session.Lawful (declareFirst args) Value.Lawful := by
  refine (upholds_ofExcept fun _ _ => trivial).bind fun _ (_ : True) => ?_
  split
  · next name value rest =>
    obtain ⟨hfirst, hrest⟩ := h
    have hvalue := hrest value List.mem_cons_self
    have hname : IsName name ∨ isReserved name = true := by
      rcases hfirst with hlawful | ⟨-, other, hother, heq⟩
      · exact .inr hlawful.isReserved
      · cases heq
        exact .inl hother
    exact (upholds_declare hname hvalue).bind fun _ _ => upholds_pure hvalue
  · exact upholds_throw _

end Session

theorem upholds_printAll (vs : List Value) :
    Upholds (fun _ => True) (printAll vs) fun _ => True := by
  intro s _
  cases printAll vs s with
  | ok x s' => exact ⟨trivial, trivial⟩
  | error e s' => trivial

theorem Builtin.upholds_apply (b : Builtin) (args : List Value) :
    Upholds (fun _ => True) (b.apply args) Value.Lawful := by
  refine (upholds_ofExcept fun _ _ => trivial).bind fun _ (_ : True) => ?_
  split
  · next op x y rest =>
    refine upholds_ofExcept fun v hv => ?_
    unfold BinaryOp.apply at hv
    split at hv
    · next result h =>
      rw [mapError_eq_ok_iff.mp hv] at h
      exact BinaryOp.lawful_of_onValues h
    · cases hv
  · exact (upholds_printAll args).bind fun _ _ => upholds_pure trivial
  · exact upholds_pure (Value.lawful_matrix _)
  · refine upholds_ofExcept fun v hv => ?_
    obtain ⟨r, -, rfl⟩ := map_eq_ok_iff.mp hv
    exact r.lawful_toValue
  · exact upholds_throw _

theorem Session.upholds_invoke {name : String} {args : List Value}
    (h : name = "init" → Arguments true args) :
    Upholds Session.Lawful (invoke name args) Value.Lawful := by
  unfold invoke
  split
  · next hinit => exact upholds_declareFirst (h hinit)
  · split
    · exact upholds_onSink (Builtin.upholds_apply _ args)
    · exact upholds_throw _

/-! ## Evaluation -/

namespace Eval

variable {α : Type} {R : α → Prop}

theorem upholds_located {callee : Span} {args : List Span} {p : EStateM InvocationError Session α}
    (h : Upholds Session.Lawful p R) : Upholds Session.Lawful (located callee args p) R := by
  intro s hs
  have hstep := h s hs
  unfold located EStateM.adaptExcept
  cases hp : p s with
  | ok x s' =>
    rw [hp] at hstep
    exact hstep
  | error e s' =>
    rw [hp] at hstep
    exact hstep

theorem upholds_sign {op : Located UnaryOp} {x : Value} {span : Span} (hx : x.Lawful) :
    Upholds Session.Lawful (sign op x span) Value.Lawful := by
  unfold sign
  split
  · exact upholds_throw _
  · exact upholds_pure hx
  · next result hneg =>
    refine upholds_located (upholds_ofExcept fun y hy => ?_)
    rw [mapError_eq_ok_iff.mp hy] at hneg
    exact Value.lawful_of_neg hneg

theorem upholds_resolve {name : Located String} (hname : IsName name.value) :
    Upholds Session.Lawful (resolve name) Value.Lawful := by
  refine upholds_get.bind fun s hs => ?_
  split
  · next value hget =>
    obtain ⟨b, hb, rfl⟩ := Environment.mem_of_get? hget
    exact upholds_pure (hs.values b hb)
  · split
    · next hr => exact upholds_pure (Value.lawful_symbol hname hr)
    · exact upholds_throw _

def PostfixUpholds : Postfix Action → Prop
  | .operand action => Upholds Session.Lawful action.value Value.Lawful
  | .operator _ => True

theorem upholds_runPostfix {whole : Span} {items : List (Postfix Action)}
    (hi : ∀ p ∈ items, PostfixUpholds p) {stack : List (Located Value)}
    (hs : ∀ v ∈ stack, v.value.Lawful) :
    Upholds Session.Lawful (runPostfix whole items stack) Value.Lawful := by
  fun_induction runPostfix whole items stack with
  | case1 v => exact upholds_pure (hs v List.mem_cons_self)
  | case2 => exact upholds_throw _
  | case3 action rest stack ih =>
    obtain ⟨hp, hrest⟩ := List.forall_mem_cons.mp hi
    exact Upholds.bind hp fun value hvalue => ih value hrest (List.forall_mem_cons.mpr ⟨hvalue, hs⟩)
  | case4 op rest y x stack ih =>
    obtain ⟨-, hrest⟩ := List.forall_mem_cons.mp hi
    obtain ⟨-, hs⟩ := List.forall_mem_cons.mp hs
    obtain ⟨-, hs⟩ := List.forall_mem_cons.mp hs
    have hop : op.value.symbol ≠ "init" := by cases op.value <;> decide
    refine (upholds_located (Session.upholds_invoke fun h => absurd h hop)).bind fun value hvalue => ?_
    exact ih value hrest (List.forall_mem_cons.mpr ⟨hvalue, hs⟩)
  | case5 op rest x stack ih =>
    obtain ⟨-, hrest⟩ := List.forall_mem_cons.mp hi
    obtain ⟨hx, hs⟩ := List.forall_mem_cons.mp hs
    exact (upholds_sign hx).bind fun value hvalue =>
      ih value hrest (List.forall_mem_cons.mpr ⟨hvalue, hs⟩)
  | case6 => exact upholds_throw _

theorem upholds_runItems {whole : Span} {items : List (Item Operand)}
    (h : ∀ x, .operand x ∈ items → Upholds Session.Lawful (operand x) Value.Lawful) :
    Upholds Session.Lawful (runItems whole (actions items)) Value.Lawful := by
  rw [Tree.runItems_eq]
  split
  · next ordered hp =>
    refine upholds_runPostfix (fun p hmem => ?_) (List.forall_mem_nil _)
    have hmem := (perm_toPostfix hp).mem_iff.mp hmem
    rw [actions_eq_map] at hmem
    obtain ⟨_, ha, hp⟩ := List.mem_filterMap.mp hmem
    obtain ⟨item, hi, rfl⟩ := List.mem_map.mp ha
    cases item with
    | operand x => cases hp; exact h x hi
    | binary op => cases hp; trivial
    | unary op => cases hp; trivial
    | opening span => cases hp
    | closing span => cases hp
  · exact upholds_throw _

theorem upholds_elementOf {span : Span} {value : Value} :
    Upholds Session.Lawful (elementOf span value) fun _ => True := by
  unfold elementOf
  split
  · exact upholds_pure trivial
  · exact upholds_throw _

theorem upholds_matrixOfRows {whole : Span} {rowSpans : List Span} (rows : Grid) :
    Upholds Session.Lawful (matrixOfRows whole rowSpans rows) Value.Lawful := by
  unfold matrixOfRows
  split
  · exact upholds_pure (Value.lawful_matrix _)
  · exact upholds_throw _
  · exact upholds_throw _

mutual

theorem upholds_operand (x : Operand) (hx : x.Regular) (h : ∀ e ∈ x.expressions, Neat e) :
    Upholds Session.Lawful (operand x) Value.Lawful := by
  match x with
  | .number n => exact upholds_pure trivial
  | .symbol s => exact upholds_resolve hx
  | .call ⟨name, args, span, parens⟩ =>
    refine (upholds_arguments (name.value == "init") args h).bind fun values hvalues => ?_
    refine upholds_located (Session.upholds_invoke fun hinit => ?_)
    simpa [hinit] using hvalues
  | .matrix ⟨rows, span⟩ =>
    exact (upholds_rows rows h).bind fun values _ => upholds_matrixOfRows values

theorem upholds_expression (e : Infix Operand) (h : ∀ e' ∈ withSubexpressions e, Neat e') :
    Upholds Session.Lawful (expression e) Value.Lawful := by
  match e with
  | ⟨items, span⟩ =>
    obtain ⟨he, hitems⟩ := List.forall_mem_cons.mp h
    exact upholds_runItems (upholds_items items he.regular hitems)

theorem upholds_items (items : List (Item Operand))
    (hregular : ∀ x, .operand x ∈ items → x.Regular) (h : ∀ e ∈ itemsExpressions items, Neat e) :
    ∀ x, .operand x ∈ items → Upholds Session.Lawful (operand x) Value.Lawful := by
  match items with
  | [] => intro x hx; cases hx
  | item :: items =>
    obtain ⟨hi, hrest⟩ := List.forall_mem_append.mp h
    intro x hx
    rcases List.mem_cons.mp hx with hx | hx
    · exact upholds_item item (fun y hy => hregular y (hy ▸ List.mem_cons_self)) hi x hx
    · exact upholds_items items (fun y hy => hregular y (List.mem_cons_of_mem _ hy)) hrest x hx

theorem upholds_item (item : Item Operand) (hregular : ∀ x, .operand x = item → x.Regular)
    (h : ∀ e ∈ itemExpressions item, Neat e) (x : Operand) (hx : .operand x = item) :
    Upholds Session.Lawful (operand x) Value.Lawful := by
  match item with
  | .operand y => cases hx; exact upholds_operand _ (hregular _ rfl) h

theorem upholds_arguments (declares : Bool) (es : List (Infix Operand))
    (h : ∀ e ∈ allExpressions es, Neat e) :
    Upholds Session.Lawful (arguments declares es) (Session.Arguments declares) := by
  match es with
  | [] => exact upholds_pure trivial
  | e :: es =>
    obtain ⟨he, hrest⟩ := List.forall_mem_append.mp h
    refine (upholds_argument declares e he).bind fun value hvalue => ?_
    refine (upholds_arguments false es hrest).bind fun values hvalues => upholds_pure ⟨hvalue, ?_⟩
    cases values with
    | nil => exact List.forall_mem_nil _
    | cons v vs =>
      -- only the first argument is taken for a name
      have hv : v.Lawful := hvalues.1.resolve_right fun h => Bool.false_ne_true h.1
      exact List.forall_mem_cons.mpr ⟨hv, hvalues.2⟩

theorem upholds_argument (declares : Bool) (e : Infix Operand)
    (h : ∀ e' ∈ withSubexpressions e, Neat e') :
    Upholds Session.Lawful (argument declares e) fun v =>
      v.Lawful ∨ declares = true ∧ ∃ name, IsName name ∧ v = .symbol name := by
  match e with
  | ⟨items, span⟩ =>
    obtain ⟨he, hitems⟩ := List.forall_mem_cons.mp h
    rw [argument]
    split
    · next name hname =>
      obtain ⟨hdeclares, s, rfl, rfl⟩ := exists_of_declaredName? hname
      have hs : IsName s.value := he.regular (.symbol s) List.mem_cons_self
      exact upholds_pure (.inr ⟨hdeclares, s.value, hs, rfl⟩)
    · exact (upholds_runItems (upholds_items items he.regular hitems)).mono fun _ => .inl

theorem upholds_rows (rows : List (Bracketed (Infix Operand)))
    (h : ∀ e ∈ rowsExpressions rows, Neat e) :
    Upholds Session.Lawful (matrixRows rows) fun _ => True := by
  match rows with
  | [] => exact upholds_pure trivial
  | ⟨elements, span⟩ :: rows =>
    obtain ⟨he, hrest⟩ := List.forall_mem_append.mp h
    exact Upholds.bind (upholds_elements elements he) fun _ _ =>
      Upholds.bind (upholds_rows rows hrest) fun _ _ => upholds_pure trivial

theorem upholds_elements (es : List (Infix Operand)) (h : ∀ e ∈ allExpressions es, Neat e) :
    Upholds Session.Lawful (matrixElements es) fun _ => True := by
  match es with
  | [] => exact upholds_pure trivial
  | e :: es =>
    obtain ⟨he, hrest⟩ := List.forall_mem_append.mp h
    exact (upholds_expression e he).bind fun value _ => upholds_elementOf.bind fun x _ =>
      Upholds.bind (upholds_elements es hrest) fun _ _ => upholds_pure trivial

end

theorem upholds_statement {s : Statement} (h : Parse.StatementNeat s) :
    Upholds Session.Lawful (statement s) Value.Lawful := by
  cases s with
  | declaration d =>
    refine (upholds_expression d.value h.inside).bind fun value hvalue => ?_
    exact (upholds_located (Session.upholds_declare (.inl h.name) hvalue)).bind fun _ _ =>
      upholds_pure hvalue
  | call c => exact upholds_operand (.call c) h.name h.inside

theorem upholds_statementsFrom {last : Value} (hlast : last.Lawful) {script : List Statement}
    (h : ∀ s ∈ script, Parse.StatementNeat s) :
    Upholds Session.Lawful (statementsFrom last script) Value.Lawful := by
  induction script generalizing last with
  | nil => exact upholds_pure hlast
  | cons s script ih =>
    obtain ⟨hs, hrest⟩ := List.forall_mem_cons.mp h
    exact (upholds_statement hs).bind fun value hvalue => ih hvalue hrest

theorem upholds_statements {script : List Statement} (h : ∀ s ∈ script, Parse.StatementNeat s) :
    Upholds Session.Lawful (statements script) Value.Lawful :=
  @upholds_statementsFrom .unit trivial script h

theorem upholds_script (text : String) : Upholds Session.Lawful (script text) Value.Lawful := by
  refine (upholds_ofExcept fun script h => ?_).bind fun script hscript => upholds_statements hscript
  exact statementNeat_of_parseScript h

end Eval

/-! ## Runs of scripts -/

def stateAfter {ε σ α : Type} : EStateM.Result ε σ α → σ
  | .ok _ s | .error _ s => s

theorem Leaves.stateAfter {ε σ α : Type} {I : σ → Prop} {R : α → Prop}
    {result : EStateM.Result ε σ α} (h : Leaves I R result) : I (stateAfter result) := by
  cases result with
  | ok x s => exact h.2
  | error e s => exact h

/-- What runs of scripts make of an empty session, each with whatever sink. -/
inductive Session.Reachable : Session → Prop
  | start (sink : Sink) : Reachable { sink }
  | run {s : Session} (text : String) : Reachable s → Reachable (stateAfter (Eval.script text s))
  | redirect {s : Session} (sink : Sink) : Reachable s → Reachable { s with sink }

theorem Session.Reachable.lawful {s : Session} (h : s.Reachable) : s.Lawful := by
  induction h with
  | start sink => exact ⟨List.forall_mem_nil _, List.forall_mem_nil _⟩
  | run text _ ih => exact (Eval.upholds_script text _ ih).stateAfter
  | redirect sink _ ih => exact ⟨ih.values, ih.names⟩

/-- Between runs, after each statement of a run and in what a run returns, also if it fails.  Rows
that an operation computes are those of a matrix without being checked. -/
theorem session_lawful {s : Session} (h : s.Reachable) :
    s.Lawful ∧
    (∀ text, Leaves Session.Lawful Value.Lawful (Eval.script text s)) ∧
    (∀ text before rest, parseScript text = .ok (before ++ rest) →
      Leaves Session.Lawful Value.Lawful (Eval.statements before s)) ∧
    (∀ (op : BinaryOp) x y result, op.onValues? x y = some result → Accepted result) ∧
    (∀ (x : Value) result, x.neg? = some result → Accepted result) ∧
    ∀ (r : Reduction) m, Accepted (r.apply m) := by
  refine ⟨h.lawful, fun text => Eval.upholds_script text s h.lawful, fun text before rest hp => ?_,
    fun op x y result => BinaryOp.accepted_onValues, fun x result => Value.accepted_neg,
    fun r m => r.accepted_apply m⟩
  have hneat := statementNeat_of_parseScript hp
  exact Eval.upholds_statements (fun st hst => hneat st (List.mem_append_left _ hst)) s h.lawful

/-- The first run fails when it comes to declare `det`, and another one goes on from there. -/
theorem session_lawful_of_failing_run :
    let half : Fraction := ⟨1, 2, by decide, by decide, by decide, by decide⟩
    let s := stateAfter (Eval.script "init(x, 1 / 2); let p = print; init(det, x);" {})
    let later := stateAfter (Eval.script "let y = x * 2;" s)
    s.vars.bindings = [("x", .rational half), ("p", .symbol "print")] ∧ s.Reachable ∧ s.Lawful ∧
      later.vars.get? "y" = some (.integer 1) ∧ later.Lawful := by
  intro half s later
  have hs : s.vars.bindings = [("x", .rational half), ("p", .symbol "print")] := by decide +kernel
  have hlater : later.vars.get? "y" = some (.integer 1) := by decide +kernel
  have hreachable : s.Reachable := .run _ (.start {})
  have hlawful := session_lawful hreachable
  exact ⟨hs, hreachable, hlawful.1, hlater, (hlawful.2.1 _).stateAfter⟩

end MatrixScript
