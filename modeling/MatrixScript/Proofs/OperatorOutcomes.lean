import MatrixScript.Session
import MatrixScript.Proofs.RepresentableResults

/-!
# Outcomes of operators

An operator refuses operands of other types first, then matrices that do not fit together, then a
division by zero.  Otherwise it gives the exact result, unless a number on the way there is too
large.
-/

namespace MatrixScript

open Grid

/-! ## Scalars -/

namespace Value

def number? : Value → Option ℚ
  | .integer n => some n.toInt
  | .rational r => some r.toRat
  | .matrix _ | .symbol _ | .unit => none

inductive Shows : Value → ℚ → Prop
  | integer (n : Int64) : Shows (.integer n) n.toInt
  | rational {r : Fraction} (h : r.den ≠ 1) : Shows (.rational r) r.toRat

theorem isScalar_iff {x : Value} : x.isScalar = true ↔ ∃ a, x.toFraction? = some a :=
  Option.isSome_iff_exists

theorem number?_of_toFraction? {x : Value} {a : Fraction} (h : x.toFraction? = some a) :
    x.number? = some a.toRat := by
  cases x <;> cases h <;> rfl

theorem shows_scalar (r : Fraction) : (scalar r).Shows r.toRat := by
  unfold scalar Fraction.toInt64? Fraction.isInteger
  by_cases hden : r.den = 1
  · have hrat : r.toRat = (Int64.ofInt r.num).toInt := by
      rw [Fraction.toRat_eq_div, hden, toInt_ofInt_of_inInt64 r.num_range]
      simp
    simpa [hden, hrat] using Shows.integer (Int64.ofInt r.num)
  · simpa [hden] using Shows.rational hden

end Value

/-! ## What operators are for -/

namespace BinaryOp

def onRat : BinaryOp → ℚ → ℚ → ℚ
  | .mul => (· * ·)
  | .div => (· / ·)
  | .add => (· + ·)
  | .sub => (· - ·)

inductive Supports : BinaryOp → Value → Value → Prop
  | scalars {op : BinaryOp} {x y : Value} (hx : x.isScalar = true) (hy : y.isScalar = true) :
    Supports op x y
  | entrywise {op : BinaryOp} {m n : RatMatrix} (hop : op = .add ∨ op = .sub) :
    Supports op (.matrix m) (.matrix n)
  | product {m n : RatMatrix} : Supports .mul (.matrix m) (.matrix n)
  | scaled {op : BinaryOp} {m : RatMatrix} {y : Value} (hop : op = .mul ∨ op = .div)
      (hy : y.isScalar = true) : Supports op (.matrix m) y
  | scaledLeft {x : Value} {n : RatMatrix} (hx : x.isScalar = true) : Supports .mul x (.matrix n)

def Misfits (op : BinaryOp) (x y : Value) : Prop :=
  match op, x, y with
  | .add, .matrix m, .matrix n | .sub, .matrix m, .matrix n => m.shape ≠ n.shape
  | .mul, .matrix m, .matrix n => m.width ≠ n.height
  | _, _, _ => False

def DividesByZero (op : BinaryOp) (y : Value) : Prop := op = .div ∧ y.number? = some 0

/-- The numbers that are computed on the way to the result.  For a product of matrices these are
the products of entries and their sums from left to right. -/
inductive Needs : BinaryOp → Value → Value → ℚ → Prop
  | scalars {op : BinaryOp} {x y : Value} {a b : ℚ} (hx : x.number? = some a)
      (hy : y.number? = some b) : Needs op x y (op.onRat a b)
  | entrywise {op : BinaryOp} {m n : RatMatrix} {i j : Nat} (hop : op = .add ∨ op = .sub)
      (hi : i < m.height) (hj : j < m.width) :
    Needs op (.matrix m) (.matrix n) (op.onRat (m.rows.value i j) (n.rows.value i j))
  | product {m n : RatMatrix} {i j k : Nat} (hi : i < m.height) (hj : j < n.width)
      (hk : k < n.height) :
    Needs .mul (.matrix m) (.matrix n) (m.rows.value i k * n.rows.value k j)
  | sum {m n : RatMatrix} {i j l : Nat} (hi : i < m.height) (hj : j < n.width)
      (hl : l ≤ n.height) :
    Needs .mul (.matrix m) (.matrix n) (partialSum (m.rows.value i) (n.rows.value · j) l)
  | scaled {op : BinaryOp} {m : RatMatrix} {y : Value} {b : ℚ} {i j : Nat}
      (hop : op = .mul ∨ op = .div) (hy : y.number? = some b) (hi : i < m.height)
      (hj : j < m.width) : Needs op (.matrix m) y (op.onRat (m.rows.value i j) b)
  | scaledLeft {x : Value} {n : RatMatrix} {a : ℚ} {i j : Nat} (hx : x.number? = some a)
      (hi : i < n.height) (hj : j < n.width) : Needs .mul x (.matrix n) (a * n.rows.value i j)

/-- The last value is the exact result. -/
inductive Gives : BinaryOp → Value → Value → Value → Prop
  | scalars {op : BinaryOp} {x y z : Value} {a b : ℚ} (hx : x.number? = some a)
      (hy : y.number? = some b) (hz : z.Shows (op.onRat a b)) : Gives op x y z
  | entrywise {op : BinaryOp} {m n p : RatMatrix} (hop : op = .add ∨ op = .sub)
      (hp : p.rows.Tabulates m.height m.width fun i j =>
        op.onRat (m.rows.value i j) (n.rows.value i j)) :
    Gives op (.matrix m) (.matrix n) (.matrix p)
  | product {m n p : RatMatrix}
      (hp : p.rows.Tabulates m.height n.width fun i j =>
        partialSum (m.rows.value i) (n.rows.value · j) n.height) :
    Gives .mul (.matrix m) (.matrix n) (.matrix p)
  | scaled {op : BinaryOp} {m p : RatMatrix} {y : Value} {b : ℚ} (hop : op = .mul ∨ op = .div)
      (hy : y.number? = some b)
      (hp : p.rows.Tabulates m.height m.width fun i j => op.onRat (m.rows.value i j) b) :
    Gives op (.matrix m) y (.matrix p)
  | scaledLeft {x : Value} {n p : RatMatrix} {a : ℚ} (hx : x.number? = some a)
      (hp : p.rows.Tabulates n.height n.width fun i j => a * n.rows.value i j) :
    Gives .mul x (.matrix n) (.matrix p)

variable {op : BinaryOp} {x y : Value} {m n : RatMatrix} {P : ℚ → Prop}

/-! ## Refused operands -/

theorem supports_of_onValues {result : Except MatrixError Value}
    (h : op.onValues? x y = some result) : Supports op x y := by
  unfold onValues? at h
  split at h
  · exact .entrywise (.inl rfl)
  · exact .entrywise (.inr rfl)
  · exact .product
  · obtain ⟨factor, hy, -⟩ := Option.map_eq_some_iff.mp h
    exact .scaled (.inl rfl) (Value.isScalar_iff.mpr ⟨factor, hy⟩)
  · obtain ⟨factor, hx, -⟩ := Option.map_eq_some_iff.mp h
    exact .scaledLeft (Value.isScalar_iff.mpr ⟨factor, hx⟩)
  · obtain ⟨divisor, hy, -⟩ := Option.map_eq_some_iff.mp h
    exact .scaled (.inr rfl) (Value.isScalar_iff.mpr ⟨divisor, hy⟩)
  · split at h
    · next hx hy => exact .scalars (Value.isScalar_iff.mpr ⟨_, hx⟩) (Value.isScalar_iff.mpr ⟨_, hy⟩)
    · cases h

theorem apply_of_not_supports (h : ¬ Supports op x y) :
    op.apply x y = .error (.invalidBinaryOperation op.symbol x.typeName y.typeName) := by
  unfold apply
  cases hr : op.onValues? x y with
  | none => rfl
  | some result => exact absurd (supports_of_onValues hr) h

theorem apply_of_shapeMismatch {result : Except MatrixError RatMatrix}
    (h : op.onValues? (.matrix m) (.matrix n) = some (.matrix <$> result))
    (hresult : result = .error (.shapeMismatch op.symbol m.shape n.shape)) :
    op.apply (.matrix m) (.matrix n) =
      .error (.matrix op.symbol (.shapeMismatch op.symbol m.shape n.shape)) := by
  rw [apply, h, hresult]
  rfl

theorem apply_of_misfits (h : Misfits op x y) : ∃ m n, x = .matrix m ∧ y = .matrix n ∧
    op.apply x y = .error (.matrix op.symbol (.shapeMismatch op.symbol m.shape n.shape)) := by
  unfold Misfits at h
  split at h
  · exact ⟨_, _, rfl, rfl, apply_of_shapeMismatch rfl (if_neg h)⟩
  · exact ⟨_, _, rfl, rfl, apply_of_shapeMismatch rfl (if_neg h)⟩
  · exact ⟨_, _, rfl, rfl, apply_of_shapeMismatch rfl (if_neg h)⟩
  · exact h.elim

/-! ## Results -/

theorem exact_onFractions (op : BinaryOp) (a b : Fraction) :
    Exact (op.onFractions a b) (op = .div ∧ b.toRat = 0) (op.onRat a.toRat b.toRat) := by
  cases op with
  | mul => simpa [onFractions, onRat] using a.exact_mul b
  | div => simpa [onFractions, onRat] using a.exact_div b
  | add => simpa [onFractions, onRat] using a.exact_add b
  | sub => simpa [onFractions, onRat] using a.exact_sub b

theorem computes_onFractions {b : Fraction} (hzero : op = .div → b.toRat ≠ 0) (a : Fraction) :
    Computes (op.onRat a.toRat b.toRat) (op.onFractions a b) :=
  (exact_onFractions op a b).computes fun h => hzero h.1 h.2

/-- The exact result, or an overflow if a number that is needed does not fit. -/
abbrev IsExact (op : BinaryOp) (x y : Value) : Except InvocationError Value → Prop :=
  OkIff (∀ q, Needs op x y q → Fits q) (Gives op x y) (.arithmetic .overflow)

theorem isExact_apply {fits : Prop} {result : Except MatrixError Value}
    (h : op.onValues? x y = some result) (hfits : (∀ q, Needs op x y q → Fits q) ↔ fits)
    (hresult : OkIff fits (Gives op x y) (.arithmetic .overflow) result) :
    IsExact op x y (op.apply x y) := by
  unfold apply
  rw [h]
  exact (hresult.congr hfits.symm).mapError _

/-! ### Scalars -/

theorem forall_needs_scalars {a b : ℚ} (hx : x.number? = some a) (hy : y.number? = some b) :
    (∀ q, Needs op x y q → P q) ↔ P (op.onRat a b) := by
  constructor
  · exact fun h => h _ (.scalars hx hy)
  · intro h q hq
    cases hq with
    | scalars hx' hy' =>
      cases hx.symm.trans hx'
      cases hy.symm.trans hy'
      exact h
    | scaledLeft => cases hy
    | _ => cases hx

theorem onValues_scalars {a b : Fraction} (hx : x.toFraction? = some a)
    (hy : y.toFraction? = some b) :
    op.onValues? x y = some (Value.scalar <$> (op.onFractions a b).mapError .arithmetic) := by
  cases x <;> cases hx <;> cases y <;> cases hy <;> cases op <;> rfl

theorem isExact_scalars {a b : Fraction} (hx : x.toFraction? = some a)
    (hy : y.toFraction? = some b) (hzero : op = .div → b.toRat ≠ 0) :
    IsExact op x y (op.apply x y) := by
  have ha := Value.number?_of_toFraction? hx
  have hb := Value.number?_of_toFraction? hy
  have hresult := (computes_onFractions hzero a).mapError MatrixError.arithmetic
  exact isExact_apply (onValues_scalars hx hy) (forall_needs_scalars ha hb)
    (hresult.map Value.scalar fun r hr => .scalars ha hb (hr ▸ Value.shows_scalar r))

/-! ### Sums and differences of matrices -/

theorem forall_needs_entrywise (hop : op = .add ∨ op = .sub) :
    (∀ q, Needs op (.matrix m) (.matrix n) q → P q) ↔
      ∀ i < m.height, ∀ j < m.width, P (op.onRat (m.rows.value i j) (n.rows.value i j)) := by
  constructor
  · exact fun h i hi j hj => h _ (.entrywise hop hi hj)
  · intro h q hq
    cases hq with
    | entrywise _ hi hj => exact h _ hi _ hj
    | scalars hx => cases hx
    | scaled _ hy => cases hy
    | scaledLeft hx => cases hx
    | _ => rcases hop with hop | hop <;> cases hop

theorem onValues_entrywise (hop : op = .add ∨ op = .sub) (hshape : m.shape = n.shape) :
    op.onValues? (.matrix m) (.matrix n) =
      some (.matrix <$> RatMatrix.ofResult (m.rows.zipEntries op.onFractions n.rows)) := by
  rcases hop with rfl | rfl
  · exact congrArg (fun result => some (Value.matrix <$> result)) (if_pos hshape)
  · exact congrArg (fun result => some (Value.matrix <$> result)) (if_pos hshape)

theorem isExact_entrywise (hop : op = .add ∨ op = .sub) (hshape : m.shape = n.shape) :
    IsExact op (.matrix m) (.matrix n) (op.apply (.matrix m) (.matrix n)) := by
  obtain ⟨hheight, hwidth⟩ := Prod.mk.inj hshape
  have hn : n.rows.Rectangular m.width := fun row hrow => (n.rectangular row hrow).trans hwidth.symm
  have hexact (a b : Fraction) : Computes (op.onRat a.toRat b.toRat) (op.onFractions a b) := by
    refine computes_onFractions (fun hdiv => ?_) a
    rcases hop with rfl | rfl <;> cases hdiv
  have hresult := RatMatrix.okIff_ofResult m.height_pos m.width_pos
    (okIff_zipEntries m.rectangular hn hheight.symm hexact)
  exact isExact_apply (onValues_entrywise hop hshape) (forall_needs_entrywise hop)
    (hresult.map Value.matrix fun p hp => .entrywise hop hp)

/-! ### Products of matrices -/

theorem forall_needs_product :
    (∀ q, Needs .mul (.matrix m) (.matrix n) q → P q) ↔
      ∀ i < m.height, ∀ j < n.width,
        (∀ k < n.height, P (m.rows.value i k * n.rows.value k j)) ∧
          ∀ l ≤ n.height, P (partialSum (m.rows.value i) (n.rows.value · j) l) := by
  constructor
  · exact fun h i hi j hj =>
      ⟨fun k hk => h _ (.product hi hj hk), fun l hl => h _ (.sum hi hj hl)⟩
  · intro h q hq
    cases hq with
    | product hi hj hk => exact (h _ hi _ hj).1 _ hk
    | sum hi hj hl => exact (h _ hi _ hj).2 _ hl
    | scalars hx => cases hx
    | entrywise hop => rcases hop with hop | hop <;> cases hop
    | scaled _ hy => cases hy
    | scaledLeft hx => cases hx

theorem isExact_product (hinner : m.width = n.height) :
    IsExact .mul (.matrix m) (.matrix n) (BinaryOp.mul.apply (.matrix m) (.matrix n)) := by
  have hmul : m.mul n = RatMatrix.ofResult (m.rows.mul n.rows) := if_pos hinner
  have hm : m.rows.Rectangular n.height := fun row hrow => (m.rectangular row hrow).trans hinner
  have hresult := RatMatrix.okIff_ofResult m.height_pos n.width_pos (okIff_mul hm)
  exact isExact_apply (by rw [onValues?, hmul]) forall_needs_product
    (hresult.map Value.matrix fun p hp => .product hp)

/-! ### Matrices and scalars -/

theorem forall_needs_scaled {b : ℚ} (hop : op = .mul ∨ op = .div) (hy : y.number? = some b) :
    (∀ q, Needs op (.matrix m) y q → P q) ↔
      ∀ i < m.height, ∀ j < m.width, P (op.onRat (m.rows.value i j) b) := by
  constructor
  · exact fun h i hi j hj => h _ (.scaled hop hy hi hj)
  · intro h q hq
    cases hq with
    | scaled _ hy' hi hj =>
      cases hy.symm.trans hy'
      exact h _ hi _ hj
    | scalars hx => cases hx
    | _ => cases hy

theorem onValues_scaled {b : Fraction} (hop : op = .mul ∨ op = .div) (hy : y.toFraction? = some b) :
    op.onValues? (.matrix m) y =
      some (.matrix <$> RatMatrix.ofResult (m.rows.mapEntries (op.onFractions · b))) := by
  rcases hop with rfl | rfl <;> cases y <;> cases hy <;> rfl

theorem isExact_scaled {b : Fraction} (hop : op = .mul ∨ op = .div) (hy : y.toFraction? = some b)
    (hzero : op = .div → b.toRat ≠ 0) : IsExact op (.matrix m) y (op.apply (.matrix m) y) := by
  have hb := Value.number?_of_toFraction? hy
  have hresult := RatMatrix.okIff_ofResult m.height_pos m.width_pos
    (okIff_mapEntries (op.onRat · b.toRat) m.rectangular (computes_onFractions hzero))
  exact isExact_apply (onValues_scaled hop hy) (forall_needs_scaled hop hb)
    (hresult.map Value.matrix fun p hp => .scaled hop hb hp)

theorem forall_needs_scaledLeft {a : ℚ} (hx : x.number? = some a) :
    (∀ q, Needs .mul x (.matrix n) q → P q) ↔
      ∀ i < n.height, ∀ j < n.width, P (a * n.rows.value i j) := by
  constructor
  · exact fun h i hi j hj => h _ (.scaledLeft hx hi hj)
  · intro h q hq
    cases hq with
    | scaledLeft hx' hi hj =>
      cases hx.symm.trans hx'
      exact h _ hi _ hj
    | scalars _ hy => cases hy
    | _ => cases hx

theorem onValues_scaledLeft {a : Fraction} (hx : x.toFraction? = some a) :
    BinaryOp.mul.onValues? x (.matrix n) = some (.matrix <$> n.scale a) := by
  cases x <;> cases hx <;> rfl

theorem isExact_scaledLeft {a : Fraction} (hx : x.toFraction? = some a) :
    IsExact .mul x (.matrix n) (BinaryOp.mul.apply x (.matrix n)) := by
  have ha := Value.number?_of_toFraction? hx
  have hexact (c : Fraction) : Computes (a.toRat * c.toRat) (c.mul a) :=
    mul_comm c.toRat a.toRat ▸ (c.exact_mul a).computes not_false
  have hresult := RatMatrix.okIff_ofResult n.height_pos n.width_pos
    (okIff_mapEntries (a.toRat * ·) n.rectangular hexact)
  exact isExact_apply (onValues_scaledLeft hx) (forall_needs_scaledLeft ha)
    (hresult.map Value.matrix fun p hp => .scaledLeft ha hp)

/-! ### All operands -/

theorem Supports.isExact (h : Supports op x y) (hfits : ¬ Misfits op x y)
    (hzero : ¬ DividesByZero op y) : IsExact op x y (op.apply x y) := by
  have hdivisor {b : Fraction} (hy : y.toFraction? = some b) (hop : op = .div) : b.toRat ≠ 0 :=
    fun hb => hzero ⟨hop, hb ▸ Value.number?_of_toFraction? hy⟩
  cases h with
  | scalars hx hy =>
    obtain ⟨a, hx⟩ := Value.isScalar_iff.mp hx
    obtain ⟨b, hy⟩ := Value.isScalar_iff.mp hy
    exact isExact_scalars hx hy (hdivisor hy)
  | entrywise hop =>
    exact isExact_entrywise hop (by rcases hop with rfl | rfl <;> exact not_not.mp hfits)
  | product => exact isExact_product (not_not.mp hfits)
  | scaled hop hy =>
    obtain ⟨b, hy⟩ := Value.isScalar_iff.mp hy
    exact isExact_scaled hop hy (hdivisor hy)
  | scaledLeft hx =>
    obtain ⟨a, hx⟩ := Value.isScalar_iff.mp hx
    exact isExact_scaledLeft hx

theorem apply_of_dividesByZero (h : Supports op x y) (hzero : DividesByZero op y) :
    op.apply x y = .error (.arithmetic .divisionByZero) := by
  obtain ⟨rfl, hy⟩ := hzero
  have hdiv {a b : Fraction} (hb : y.toFraction? = some b) : a.div b = .error .divisionByZero := by
    have hzero := hy.symm.trans (Value.number?_of_toFraction? hb)
    exact (a.exact_div b).divisionByZero.mpr (Option.some.inj hzero).symm
  cases h with
  | scalars hx hy =>
    obtain ⟨a, hx⟩ := Value.isScalar_iff.mp hx
    obtain ⟨b, hy⟩ := Value.isScalar_iff.mp hy
    rw [apply, onValues_scalars hx hy, onFractions, hdiv hy]
    rfl
  | entrywise => cases hy
  | @scaled _ m _ hop hy =>
    obtain ⟨b, hy⟩ := Value.isScalar_iff.mp hy
    have hentries : m.rows.mapEntries (·.div b) = .error .divisionByZero :=
      mapEntries_eq_error m.width_pos fun a => hdiv hy
    rw [apply, onValues_scaled hop hy, onFractions, hentries]
    rfl

end BinaryOp

/-! ## Invocations -/

theorem Session.invoke_symbol (op : BinaryOp) (x y : Value) (s : Session) :
    Session.invoke op.symbol [x, y] s =
      match op.apply x y with
      | .ok z => .ok z s
      | .error e => .error e s := by
  have happly : Session.invoke op.symbol [x, y] = Session.onSink (ofExcept (op.apply x y)) := by
    cases op <;> rfl
  rw [happly]
  cases op.apply x y <;> rfl

/-- What an invocation of the operator can come to, and when; it leaves the session as it is. -/
structure Outcomes (op : BinaryOp) (x y : Value) (s : Session) : Prop where
  refused :
    Session.invoke op.symbol [x, y] s =
        .error (.invalidBinaryOperation op.symbol x.typeName y.typeName) s ↔
      ¬ op.Supports x y
  mismatched :
    (∃ m n, x = .matrix m ∧ y = .matrix n ∧ Session.invoke op.symbol [x, y] s =
        .error (.matrix op.symbol (.shapeMismatch op.symbol m.shape n.shape)) s) ↔
      op.Supports x y ∧ op.Misfits x y
  undefined :
    Session.invoke op.symbol [x, y] s = .error (.arithmetic .divisionByZero) s ↔
      op.Supports x y ∧ ¬ op.Misfits x y ∧ op.DividesByZero y
  overflows :
    Session.invoke op.symbol [x, y] s = .error (.arithmetic .overflow) s ↔
      op.Supports x y ∧ ¬ op.Misfits x y ∧ ¬ op.DividesByZero y ∧ ∃ q, op.Needs x y q ∧ ¬ Fits q
  succeeds :
    (∃ z, Session.invoke op.symbol [x, y] s = .ok z s ∧ op.Gives x y z) ↔
      op.Supports x y ∧ ¬ op.Misfits x y ∧ ¬ op.DividesByZero y ∧ ∀ q, op.Needs x y q → Fits q

theorem invoke_outcomes (op : BinaryOp) (x y : Value) (s : Session) : Outcomes op x y s := by
  have hinvoke := Session.invoke_symbol op x y s
  by_cases hs : op.Supports x y
  · by_cases hm : op.Misfits x y
    · obtain ⟨m, n, rfl, rfl, happly⟩ := BinaryOp.apply_of_misfits hm
      rw [happly] at hinvoke
      constructor <;> simp [hinvoke, hs, hm]
    · by_cases hz : op.DividesByZero y
      · rw [BinaryOp.apply_of_dividesByZero hs hz] at hinvoke
        constructor <;> simp [hinvoke, hs, hm, hz]
      · have hresult := hs.isExact hm hz
        cases happly : op.apply x y with
        | ok z =>
          rw [happly] at hinvoke hresult
          obtain ⟨hfits, hgives⟩ := hresult
          constructor <;> simp [hinvoke, hs, hm, hz, hgives, eq_true hfits]
        | error e =>
          rw [happly] at hinvoke hresult
          obtain ⟨hfits, rfl⟩ := hresult
          have hlarge : ∃ q, op.Needs x y q ∧ ¬ Fits q := by simpa using hfits
          constructor <;> simp [hinvoke, hs, hm, hz, hlarge, hfits]
  · rw [BinaryOp.apply_of_not_supports hs] at hinvoke
    constructor <;> simp [hinvoke, hs]

/-- The sum of the first two products is too large, though the third makes up for it. -/
example :
    let large : Fraction := .ofInt64 9223372036854775807
    let row : RatMatrix := ⟨[[1, 1, .ofInt64 (-1)]], by decide, by decide⟩
    let column : RatMatrix := ⟨[[large], [1], [1]], by decide, by decide⟩
    Session.invoke "*" [.matrix row, .matrix column] {} = .error (.arithmetic .overflow) {} := by
  decide +kernel

end MatrixScript
