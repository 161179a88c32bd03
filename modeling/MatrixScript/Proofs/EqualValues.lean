import MatrixScript.Proofs.OperatorOutcomes
import MatrixScript.Proofs.StatementFrames

/-!
# Equal values

Scalars are equal if they are the same number, whether it is kept as an integer or as a fraction.
Builtins and signs cannot tell equal values apart, except where an error names the type of an
argument.
-/

namespace MatrixScript

/-! ## Equality of values -/

namespace Value

def Same (v w : Value) : Prop := v.equal w = true

instance (v w : Value) : Decidable (v.Same w) := inferInstanceAs (Decidable (_ = true))

variable {v w : Value} {r : Fraction}

/-- Equal values are the same value or the same number. -/
theorem same_iff : v.Same w ↔ v = w ∨ ∃ r, v.toFraction? = some r ∧ w.toFraction? = some r := by
  cases v <;> cases w <;> simp [Same, equal, toFraction?] <;> grind

theorem same_of_toFraction? (hv : v.toFraction? = some r) (hw : w.toFraction? = some r) :
    v.Same w :=
  same_iff.mpr (.inr ⟨r, hv, hw⟩)

theorem same_refl (v : Value) : v.Same v := same_iff.mpr (.inl rfl)

theorem same_equivalence : Equivalence Same where
  refl := same_refl
  symm h := same_iff.mpr ((same_iff.mp h).imp Eq.symm fun ⟨r, hv, hw⟩ => ⟨r, hw, hv⟩)
  trans h₁ h₂ := by
    rcases same_iff.mp h₁ with rfl | ⟨r, hu, hv⟩
    · exact h₂
    · rcases same_iff.mp h₂ with rfl | ⟨q, hv', hw⟩
      · exact h₁
      · cases hv.symm.trans hv'
        exact same_of_toFraction? hu hw

/-! ## What a scalar is used for -/

theorem text_of_toFraction? (h : v.toFraction? = some r) : v.text = r.text := by
  cases v <;> cases h <;> rfl

theorem neg?_of_toFraction? (h : v.toFraction? = some r) :
    v.neg? = some (scalar <$> r.neg.mapError .arithmetic) := by
  cases v <;> cases h <;> rfl

theorem toFraction?_of_neg? (h : v.neg? = none) : v.toFraction? = none := by
  cases v <;> first | rfl | cases h

theorem Same.neg?_eq (h : v.Same w) : v.neg? = w.neg? := by
  rcases same_iff.mp h with rfl | ⟨r, hv, hw⟩
  · rfl
  · rw [neg?_of_toFraction? hv, neg?_of_toFraction? hw]

theorem Same.eq_of_neg? (h : v.Same w) (hv : v.neg? = none) : v = w := by
  rcases same_iff.mp h with rfl | ⟨r, hr, -⟩
  · rfl
  · cases hr.symm.trans (toFraction?_of_neg? hv)

theorem Same.text_eq (h : v.Same w) : v.text = w.text := by
  rcases same_iff.mp h with rfl | ⟨r, hv, hw⟩
  · rfl
  · rw [text_of_toFraction? hv, text_of_toFraction? hw]

end Value

/-! ## Steps that correspond -/

section
variable {ε σ α β : Type} {E : ε → ε → Prop} {S : σ → σ → Prop} {A : α → α → Prop}
  {B : β → β → Prop} {p q : EStateM ε σ α}

/-- Both give values or both give errors, related by `A` or `E`, and the states are related by
`S`. -/
inductive Corresponds (E : ε → ε → Prop) (S : σ → σ → Prop) (A : α → α → Prop) :
    EStateM.Result ε σ α → EStateM.Result ε σ α → Prop
  | ok {x y : α} {s t : σ} (hx : A x y) (hs : S s t) : Corresponds E S A (.ok x s) (.ok y t)
  | error {e f : ε} {s t : σ} (he : E e f) (hs : S s t) :
    Corresponds E S A (.error e s) (.error f t)

def Parallel (E : ε → ε → Prop) (S : σ → σ → Prop) (A : α → α → Prop) (p q : EStateM ε σ α) :
    Prop :=
  ∀ s t, S s t → Corresponds E S A (p s) (q t)

theorem parallel_pure {x y : α} (h : A x y) :
    Parallel E S A (pure x : EStateM ε σ α) (pure y) := fun _ _ hs => .ok h hs

theorem parallel_throw {e f : ε} (h : E e f) :
    Parallel E S A (throw e : EStateM ε σ α) (throw f) := fun _ _ hs => .error h hs

theorem Parallel.bind {f g : α → EStateM ε σ β} (hp : Parallel E S A p q)
    (hf : ∀ x y, A x y → Parallel E S B (f x) (g y)) : Parallel E S B (p >>= f) (q >>= g) := by
  intro s t hs
  have hstep := hp s t hs
  change Corresponds E S B (EStateM.bind p f s) (EStateM.bind q g t)
  unfold EStateM.bind
  generalize p s = r₁ at hstep
  generalize q t = r₂ at hstep
  cases hstep with
  | ok hx hs => exact hf _ _ hx _ _ hs
  | error he hs => exact .error he hs

theorem parallel_ofExcept (hE : ∀ e, E e e) (hA : ∀ x, A x x) (result : Except ε α) :
    Parallel E S A (ofExcept result : EStateM ε σ α) (ofExcept result) := by
  cases result with
  | ok x => exact parallel_pure (hA x)
  | error e => exact parallel_throw (hE e)

theorem parallel_self (hE : ∀ e, E e e) (hA : ∀ x, A x x) : Parallel E Eq A p p := by
  rintro s _ rfl
  cases p s with
  | ok x s' => exact .ok (hA x) rfl
  | error e s' => exact .error (hE e) rfl

end

/-! ## Builtins -/

inductive InvocationError.SameButTypes : InvocationError → InvocationError → Prop
  | refl (e : InvocationError) : SameButTypes e e
  | typeMismatch (name : String) (index : Nat) (expected given given' : String) :
    SameButTypes (.typeMismatch name index expected given)
      (.typeMismatch name index expected given')
  | invalidBinaryOperation (op left right left' right' : String) :
    SameButTypes (.invalidBinaryOperation op left right) (.invalidBinaryOperation op left' right')

open InvocationError (SameButTypes)

section
variable {x x' y y' : Value} {args args' : List Value}

theorem BinaryOp.onValues?_left {a : Fraction} (op : BinaryOp) (hx : x.toFraction? = some a)
    (y : Value) : op.onValues? x y = op.onValues? (.rational a) y := by
  cases x <;> cases hx <;> cases op <;> cases y <;> rfl

theorem BinaryOp.onValues?_right {b : Fraction} (op : BinaryOp) (x : Value)
    (hy : y.toFraction? = some b) : op.onValues? x y = op.onValues? x (.rational b) := by
  cases y <;> cases hy <;> cases op <;> cases x <;> rfl

theorem BinaryOp.onValues?_same (op : BinaryOp) (hx : x.Same x') (hy : y.Same y') :
    op.onValues? x y = op.onValues? x' y' := by
  have hleft : op.onValues? x y = op.onValues? x' y := by
    rcases Value.same_iff.mp hx with rfl | ⟨a, hx, hx'⟩
    · rfl
    · rw [op.onValues?_left hx, op.onValues?_left hx']
  have hright : op.onValues? x' y = op.onValues? x' y' := by
    rcases Value.same_iff.mp hy with rfl | ⟨b, hy, hy'⟩
    · rfl
    · rw [op.onValues?_right x' hy, op.onValues?_right x' hy']
  exact hleft.trans hright

theorem BinaryOp.parallel_apply {σ : Type} {S : σ → σ → Prop} (op : BinaryOp) (hx : x.Same x')
    (hy : y.Same y') :
    Parallel SameButTypes S Value.Same (ofExcept (op.apply x y)) (ofExcept (op.apply x' y')) := by
  unfold BinaryOp.apply
  rw [op.onValues?_same hx hy]
  cases op.onValues? x' y' with
  | some result => exact parallel_ofExcept .refl Value.same_refl _
  | none => exact parallel_throw (.invalidBinaryOperation ..)

theorem printAll_same (h : List.Forall₂ Value.Same args args') : printAll args = printAll args' := by
  induction h with
  | nil => rfl
  | cons hv _ ih => simp only [printAll, hv.text_eq, ih]

/-- Only the type of an argument that is not a matrix is observed. -/
theorem Builtin.parallel_apply (b : Builtin) (h : List.Forall₂ Value.Same args args') :
    Parallel SameButTypes Eq Value.Same (b.apply args) (b.apply args') := by
  unfold Builtin.apply
  rw [h.length_eq]
  refine (parallel_ofExcept (A := fun _ _ => True) .refl (fun _ => trivial) _).bind fun _ _ _ => ?_
  cases b with
  | operator op =>
    rcases h with _ | ⟨hx, _ | ⟨hy, _⟩⟩
    · exact parallel_throw (.refl _)
    · exact parallel_throw (.typeMismatch ..)
    · exact op.parallel_apply hx hy
  | print =>
    change Parallel _ _ _ (printAll args >>= fun _ => pure Value.unit)
      (printAll args' >>= fun _ => pure Value.unit)
    rw [printAll_same h]
    exact parallel_self .refl Value.same_refl
  | transpose | reduction =>
    rcases h with _ | @⟨v, w, _, _, hv, _⟩
    · exact parallel_throw (.refl _)
    · -- The arguments that follow do not matter, but the lists are different terms.
      rcases Value.same_iff.mp hv with rfl | ⟨a, hv, hw⟩
      · cases v <;> exact parallel_self .refl Value.same_refl
      · cases v <;> cases hv <;> cases w <;>
          first
          | exact parallel_throw (SameButTypes.typeMismatch ..)
          | cases hw

end

/-! ## Sessions -/

namespace Session

structure Same (s t : Session) : Prop where
  sink : s.sink = t.sink
  vars : ∀ name, Option.Rel Value.Same (s.vars.get? name) (t.vars.get? name)

variable {name : String} {v w : Value} {args args' : List Value} {s t : Session}

theorem Same.insert (h : s.Same t) (hv : v.Same w) :
    Same { s with vars := s.vars.insert name v } { t with vars := t.vars.insert name w } where
  sink := h.sink
  vars other := by
    by_cases hother : other = name
    · subst hother
      rw [Environment.get?_insert_self, Environment.get?_insert_self]
      exact .some hv
    · rw [Environment.get?_insert_of_ne _ _ _ hother, Environment.get?_insert_of_ne _ _ _ hother]
      exact h.vars other

theorem parallel_onSink {ε α : Type} {E : ε → ε → Prop} {A : α → α → Prop} {p q : EStateM ε Sink α}
    (h : Parallel E Eq A p q) : Parallel E Same A (onSink p) (onSink q) := by
  intro s t hs
  have hstep := h s.sink t.sink hs.sink
  unfold onSink
  generalize p s.sink = r₁ at hstep ⊢
  generalize q t.sink = r₂ at hstep ⊢
  cases hstep with
  | ok hx hk => exact .ok hx ⟨hk, hs.vars⟩
  | error he hk => exact .error he ⟨hk, hs.vars⟩

theorem parallel_declare (hv : v.Same w) :
    Parallel InvocationError.SameButTypes Same Eq (declare name v) (declare name w) := by
  intro s t hs
  rw [declare_apply, declare_apply]
  split
  · exact .error (.refl _) hs
  · exact .ok rfl (hs.insert hv)

theorem parallel_declareFirst (h : List.Forall₂ Value.Same args args') :
    Parallel InvocationError.SameButTypes Same Value.Same (declareFirst args)
      (declareFirst args') := by
  unfold declareFirst
  rw [h.length_eq]
  refine (parallel_ofExcept (A := fun _ _ => True) .refl (fun _ => trivial) _).bind fun _ _ _ => ?_
  rcases h with _ | @⟨first, first', _, _, hfirst, hrest⟩
  · exact parallel_throw (SameButTypes.refl _)
  · rcases Value.same_iff.mp hfirst with rfl | ⟨a, hv, hw⟩
    · -- A name is equal to itself only, so both declare it or neither does.
      rcases hrest with _ | ⟨hvalue, _⟩
      · cases first <;> exact parallel_throw (SameButTypes.refl _)
      · cases first <;> first
          | exact parallel_throw (SameButTypes.refl _)
          | exact (parallel_declare hvalue).bind fun _ _ _ => parallel_pure hvalue
    · cases first <;> cases hv <;> cases first' <;>
        first
        | exact parallel_throw (SameButTypes.typeMismatch ..)
        | cases hw

theorem parallel_invoke (h : List.Forall₂ Value.Same args args') :
    Parallel InvocationError.SameButTypes Same Value.Same (invoke name args)
      (invoke name args') := by
  unfold invoke
  split
  · exact parallel_declareFirst h
  · split
    · next b _ => exact parallel_onSink (b.parallel_apply h)
    · exact parallel_throw (.refl _)

end Session

/-! ## Signs -/

theorem parallel_sign {v w : Value} (op : Located UnaryOp) (span : Span) (h : v.Same w) :
    Parallel Eq Session.Same Value.Same (Eval.sign op v span) (Eval.sign op w span) := by
  unfold Eval.sign
  cases hv : v.neg? with
  | none =>
    cases h.eq_of_neg? hv
    rw [hv]
    exact parallel_throw rfl
  | some result =>
    rw [h.neg?_eq.symm.trans hv]
    cases op.value with
    | pos => exact parallel_pure h
    | neg =>
      cases result with
      | ok x => exact parallel_pure (Value.same_refl x)
      | error e => exact parallel_throw rfl

/-! ## Equal values cannot be told apart -/

/-- Given equal values and the same variables and output, builtins give equal values or errors
that differ at most in the types they name, and signs equal values or the same fault.  The output
stays the same and the variables stay equal. -/
theorem equal_values_indistinguishable :
    Equivalence Value.Same ∧
      (∀ (name : String) (args args' : List Value) (s t : Session),
        List.Forall₂ Value.Same args args' → s.Same t →
          Corresponds InvocationError.SameButTypes Session.Same Value.Same
            (Session.invoke name args s) (Session.invoke name args' t)) ∧
      ∀ (op : Located UnaryOp) (span : Span) (v w : Value) (s t : Session),
        v.Same w → s.Same t →
          Corresponds Eq Session.Same Value.Same (Eval.sign op v span s) (Eval.sign op w span t) :=
  ⟨Value.same_equivalence, fun _ _ _ s t hargs => Session.parallel_invoke hargs s t,
    fun op span _ _ s t h => parallel_sign op span h s t⟩

/-- The number 2 as a fraction, to `init` and to `transpose`, where a variable is kept as a fraction
as well. -/
theorem equal_values_indistinguishable_two :
    let two : Value := .rational (.ofInt64 2)
    let s : Session := { vars := ⟨[("x", .integer 2)]⟩ }
    let t : Session := { vars := ⟨[("x", two)]⟩ }
    (Value.integer 2).Same two ∧ s.Same t ∧
      Corresponds InvocationError.SameButTypes Session.Same Value.Same
        (Session.invoke "init" [.symbol "y", .integer 2] s)
        (Session.invoke "init" [.symbol "y", two] t) ∧
      Corresponds InvocationError.SameButTypes Session.Same Value.Same
        (Session.invoke "transpose" [.integer 2] s) (Session.invoke "transpose" [two] t) := by
  intro two s t
  have htwo : (Value.integer 2).Same two := by decide
  have hst : s.Same t :=
    Session.Same.insert (s := {}) (t := {}) ⟨rfl, fun _ => .none⟩ htwo
  obtain ⟨-, hinvoke, -⟩ := equal_values_indistinguishable
  exact ⟨htwo, hst, hinvoke _ _ _ _ _ (.cons (Value.same_refl _) (.cons htwo .nil)) hst,
    hinvoke _ _ _ _ _ (.cons htwo .nil) hst⟩

end MatrixScript
