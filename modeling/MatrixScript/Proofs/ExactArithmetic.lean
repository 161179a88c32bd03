import MatrixScript.Proofs.Rationals

/-!
# Exact results

A rational number fits if its lowest terms fit in 64 bits.  Arithmetic on fractions gives the exact
result whenever that fits, and says whether it is too large or undefined otherwise.
-/

namespace MatrixScript

namespace Ratio

/-! ## The divisor -/

def euclid (a : Nat) : Nat → Nat
  | 0 => a
  | b + 1 => euclid (b + 1) (a % (b + 1))
termination_by b => b
decreasing_by exact Nat.mod_lt a b.succ_pos

theorem euclid_eq_gcd (a b : Nat) : euclid a b = Nat.gcd a b := by
  induction a, b using euclid.induct with
  | case1 a => rw [euclid, Nat.gcd_zero_right]
  | case2 a b ih => rw [euclid, ih, Nat.gcd_comm a, Nat.gcd_rec (b + 1) a, Nat.gcd_comm]

theorem divisor_eq_euclid (q : Ratio) : q.divisor = euclid q.num.natAbs q.den.natAbs :=
  (euclid_eq_gcd _ _).symm

end Ratio

/-! ## Numbers that fit -/

def Fits (x : ℚ) : Prop := InInt64 x.num ∧ x.den ≤ 9223372036854775807

/-- What an operation gives whose exact result is `x`, unless that is undefined. -/
structure Exact (result : Except ArithmeticError Fraction) (undefined : Prop) (x : ℚ) : Prop where
  divisionByZero : result = .error .divisionByZero ↔ undefined
  overflow : result = .error .overflow ↔ ¬ undefined ∧ ¬ Fits x
  ok : (∃ r, result = .ok r) ↔ ¬ undefined ∧ Fits x
  lowest : ∀ r, result = .ok r → r.num = x.num ∧ r.den = x.den
  canonical : ∀ r, result = .ok r → 0 < r.den ∧ Nat.gcd r.num.natAbs r.den = 1 ∧
    (x = 0 → r.num = 0 ∧ r.den = 1)

namespace Ratio

theorem fits_toRat_iff {q : Ratio} (h : q.den ≠ 0) :
    Fits q.toRat ↔ InInt64 q.lowestNum ∧ InInt64 q.lowestDen := by
  have hpos : -9223372036854775808 ≤ (q.lowestDen : Int) := by omega
  rw [toRat_eq_lowest h, Fits]
  refine and_congr_right fun _ => ?_
  constructor
  · intro hd; exact ⟨hpos, by exact_mod_cast hd⟩
  · rintro ⟨-, hd⟩; exact_mod_cast hd

theorem exact_reduce (q : Ratio) : Exact q.reduce (q.den = 0) q.toRat where
  divisionByZero := reduce_eq_divisionByZero_iff
  overflow := by
    by_cases hz : q.den = 0
    · simp [reduce, hz]
    · rw [fits_toRat_iff hz, reduce, dif_neg hz]
      split <;> simp_all
  ok := by
    by_cases hz : q.den = 0
    · simp [reduce, hz]
    · rw [fits_toRat_iff hz, reduce, dif_neg hz]
      split <;> simp_all
  lowest := by
    intro r hr
    obtain ⟨-, hx⟩ := reduce_eq_ok_iff.mp hr
    exact ⟨congrArg Rat.num hx, congrArg Rat.den hx⟩
  canonical := by
    intro r hr
    obtain ⟨-, hx⟩ := reduce_eq_ok_iff.mp hr
    refine ⟨r.den_pos, r.reduced, fun hzero => ?_⟩
    rw [hzero] at hx
    exact ⟨congrArg Rat.num hx, congrArg Rat.den hx⟩

end Ratio

/-! ## The operations -/

namespace Fraction

variable (a b : Fraction)

theorem exact_of_den_ne_zero {q : Ratio} (h : q.den ≠ 0) : Exact q.reduce False q.toRat := by
  have hq := q.exact_reduce
  rwa [eq_false h] at hq

theorem exact_add : Exact (a.add b) False (a.toRat + b.toRat) := by
  rw [← toRat_sumRatio]
  exact exact_of_den_ne_zero (den_mul_den_ne_zero a b)

theorem exact_sub : Exact (a.sub b) False (a.toRat - b.toRat) := by
  rw [← toRat_differenceRatio]
  exact exact_of_den_ne_zero (den_mul_den_ne_zero a b)

theorem exact_mul : Exact (a.mul b) False (a.toRat * b.toRat) := by
  rw [← toRat_productRatio]
  exact exact_of_den_ne_zero (den_mul_den_ne_zero a b)

theorem exact_neg : Exact a.neg False (-a.toRat) := by
  rw [← toRat_negationRatio]
  exact exact_of_den_ne_zero (Int.natCast_ne_zero.mpr a.den_pos.ne')

theorem exact_div : Exact (a.div b) (b.toRat = 0) (a.toRat / b.toRat) := by
  have hq := (quotientRatio a b).exact_reduce
  have hz : ((quotientRatio a b).den = 0) = (b.toRat = 0) :=
    propext (not_iff_not.mp den_quotientRatio_ne_zero_iff)
  rwa [toRat_quotientRatio, hz] at hq

theorem exact_ofInts (n d : Int) : Exact (ofInts n d) (d = 0) (n / d) :=
  Ratio.exact_reduce ⟨n, d⟩

theorem quotient_eq_iff : (a.num : ℚ) / a.den = b.num / b.den ↔ a.num = b.num ∧ a.den = b.den := by
  rw [← toRat_eq_div, ← toRat_eq_div]
  constructor
  · intro h
    exact ⟨congrArg Rat.num h, congrArg Rat.den h⟩
  · rintro ⟨hn, hd⟩
    exact Rat.ext hn hd

end Fraction

/-- Every operation divides by zero exactly where it is undefined, overflows exactly where the
result in lowest terms does not fit, and otherwise gives that result; so a number has only one
fraction.  The divisor that brings to lowest terms is that of the Euclidean algorithm. -/
theorem arithmetic_exact :
    (∀ a b : Fraction,
      Exact (a.add b) False (a.num / a.den + b.num / b.den) ∧
      Exact (a.sub b) False (a.num / a.den - b.num / b.den) ∧
      Exact (a.mul b) False (a.num / a.den * (b.num / b.den)) ∧
      Exact (a.div b) (b.num = 0) (a.num / a.den / (b.num / b.den)) ∧
      Exact a.neg False (-(a.num / a.den))) ∧
    (∀ n d : Int64, Exact (Fraction.ofInts n.toInt d.toInt) (d = 0) (n.toInt / d.toInt)) ∧
    (∀ a b : Fraction, (a.num : ℚ) / a.den = b.num / b.den ↔ a.num = b.num ∧ a.den = b.den) ∧
    ∀ q : Ratio, q.divisor = Ratio.euclid q.num.natAbs q.den.natAbs := by
  refine ⟨fun a b => ?_, fun n d => ?_, Fraction.quotient_eq_iff, Ratio.divisor_eq_euclid⟩
  · have hb : (b.num = 0) = (b.toRat = 0) := propext Fraction.toRat_eq_zero_iff.symm
    rw [hb, ← Fraction.toRat_eq_div, ← Fraction.toRat_eq_div]
    exact ⟨a.exact_add b, a.exact_sub b, a.exact_mul b, a.exact_div b, a.exact_neg⟩
  · have hd : (d = 0) = (d.toInt = 0) := propext (Int64.toInt_inj (y := 0)).symm
    rw [hd]
    exact Fraction.exact_ofInts n.toInt d.toInt

end MatrixScript
