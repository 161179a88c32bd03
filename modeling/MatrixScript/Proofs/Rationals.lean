import Mathlib.Algebra.Field.Rat
import Mathlib.Data.Rat.Defs
import Mathlib.Tactic.Ring
import Mathlib.Tactic.FieldSimp
import Mathlib.Tactic.Positivity
import MatrixScript.Fraction

/-!
# Fractions as rational numbers

`Fraction.toRat` reads a fraction as a rational number.  Each operation gives the exact result if
that fits, and an overflow otherwise; only a division by zero gives another error.
-/

namespace MatrixScript

/-! ## The value of a fraction -/

namespace Fraction

def toRat (a : Fraction) : ℚ := ⟨a.num, a.den, a.den_pos.ne', a.reduced⟩

theorem num_toRat (a : Fraction) : a.toRat.num = a.num := rfl

theorem toRat_eq_div (a : Fraction) : a.toRat = a.num / a.den := (Rat.num_div_den a.toRat).symm

theorem toRat_injective : Function.Injective toRat := by
  intro a b h
  have hn : a.num = b.num := congrArg Rat.num h
  have hd : a.den = b.den := congrArg Rat.den h
  cases a; cases b
  simp only at hn hd
  subst hn hd; rfl

@[simp] theorem toRat_zero : (0 : Fraction).toRat = 0 := rfl

@[simp] theorem toRat_one : (1 : Fraction).toRat = 1 := rfl

theorem toRat_eq_zero_iff {a : Fraction} : a.toRat = 0 ↔ a.num = 0 := by
  rw [← Rat.num_eq_zero, num_toRat]

theorem isZero_iff {a : Fraction} : a.isZero = true ↔ a.toRat = 0 := by
  rw [toRat_eq_zero_iff]; simp [isZero]

theorem isZero_eq_false_iff {a : Fraction} : a.isZero = false ↔ a.toRat ≠ 0 := by
  rw [Ne, ← isZero_iff, Bool.not_eq_true]

theorem den_cast_ne_zero (a : Fraction) : (a.den : ℚ) ≠ 0 := Nat.cast_ne_zero.mpr a.den_pos.ne'

end Fraction

/-! ## Lowest terms -/

namespace Ratio

def toRat (q : Ratio) : ℚ := q.num / q.den

/-- The numerator and the denominator in lowest terms are those of the quotient. -/
theorem toRat_eq_lowest {q : Ratio} (h : q.den ≠ 0) :
    q.toRat = ⟨q.lowestNum, q.lowestDen, (lowestDen_pos h).ne', coprime_lowest h⟩ := by
  have hg : (q.divisor : Int) ≠ 0 := Int.natCast_ne_zero.mpr (divisor_pos h).ne'
  have hn : q.divisor * (q.num / q.divisor) = q.num := Int.mul_ediv_cancel' (Int.gcd_dvd_left ..)
  have hd : q.divisor * q.lowestDen = q.den.natAbs := Nat.mul_div_cancel' (Nat.gcd_dvd_right ..)
  have hs : q.den.sign * q.den = q.den.natAbs := Int.sign_mul_self_eq_natAbs q.den
  have cross : q.num * q.lowestDen = q.lowestNum * q.den := by
    apply mul_left_cancel₀ hg
    calc q.divisor * (q.num * q.lowestDen)
        = q.num * (q.divisor * q.lowestDen : Nat) := by push_cast; ring
      _ = q.divisor * (q.num / q.divisor) * (q.den.sign * q.den) := by rw [hd, hn, hs]
      _ = q.divisor * (q.lowestNum * q.den) := by unfold lowestNum; ring
  have hden : (q.den : ℚ) ≠ 0 := Int.cast_ne_zero.mpr h
  have hlow : (q.lowestDen : ℚ) ≠ 0 := Nat.cast_ne_zero.mpr (lowestDen_pos h).ne'
  rw [← Rat.num_div_den ⟨q.lowestNum, q.lowestDen, _, _⟩, toRat, div_eq_div_iff hden hlow]
  exact_mod_cast cross

/-- Bringing to lowest terms succeeds exactly if some fraction has the value of the quotient. -/
theorem reduce_eq_ok_iff {q : Ratio} {a : Fraction} :
    q.reduce = .ok a ↔ q.den ≠ 0 ∧ a.toRat = q.toRat := by
  unfold reduce
  by_cases hz : q.den = 0
  · simp [hz]
  · rw [dif_neg hz, toRat_eq_lowest hz]
    constructor
    · intro h
      split at h
      · cases h; exact ⟨hz, rfl⟩
      · cases h
    · rintro ⟨-, h⟩
      have hn : a.num = q.lowestNum := congrArg Rat.num h
      have hd : a.den = q.lowestDen := congrArg Rat.den h
      have hr : InInt64 q.lowestNum ∧ InInt64 q.lowestDen := hn ▸ hd ▸ ⟨a.num_range, a.den_range⟩
      rw [dif_pos hr]
      exact congrArg Except.ok (Fraction.toRat_injective h.symm)

theorem reduce_eq_divisionByZero_iff {q : Ratio} :
    q.reduce = .error .divisionByZero ↔ q.den = 0 := by
  unfold reduce
  by_cases hz : q.den = 0
  · simp [hz]
  · rw [dif_neg hz]; split <;> simp [hz]

theorem reduce_error {q : Ratio} {e : ArithmeticError} (hz : q.den ≠ 0)
    (h : q.reduce = .error e) : e = .overflow := by
  cases e with
  | overflow => rfl
  | divisionByZero => exact absurd (reduce_eq_divisionByZero_iff.mp h) hz

end Ratio

/-! ## Arithmetic -/

namespace Fraction

variable {a b c : Fraction}

theorem den_mul_den_ne_zero (a b : Fraction) : (a.den * b.den : Int) ≠ 0 := by
  have ha := a.den_pos
  have hb := b.den_pos
  positivity

theorem toRat_sumRatio (a b : Fraction) : (sumRatio a b).toRat = a.toRat + b.toRat := by
  have ha := a.den_cast_ne_zero
  have hb := b.den_cast_ne_zero
  simp only [Ratio.toRat, sumRatio, toRat_eq_div]
  push_cast; field_simp

theorem toRat_differenceRatio (a b : Fraction) :
    (differenceRatio a b).toRat = a.toRat - b.toRat := by
  have ha := a.den_cast_ne_zero
  have hb := b.den_cast_ne_zero
  simp only [Ratio.toRat, differenceRatio, toRat_eq_div]
  push_cast; field_simp

theorem toRat_productRatio (a b : Fraction) : (productRatio a b).toRat = a.toRat * b.toRat := by
  simp only [Ratio.toRat, productRatio, toRat_eq_div]
  push_cast; rw [div_mul_div_comm]

theorem toRat_quotientRatio (a b : Fraction) : (quotientRatio a b).toRat = a.toRat / b.toRat := by
  simp only [Ratio.toRat, quotientRatio, toRat_eq_div]
  push_cast; rw [div_div_div_eq]

theorem toRat_negationRatio (a : Fraction) : (negationRatio a).toRat = -a.toRat := by
  simp only [Ratio.toRat, negationRatio, toRat_eq_div]
  push_cast; rw [neg_div]

theorem den_quotientRatio_ne_zero_iff : (quotientRatio a b).den ≠ 0 ↔ b.toRat ≠ 0 := by
  have ha := a.den_pos
  rw [Ne, Ne, toRat_eq_zero_iff, quotientRatio, mul_eq_zero]
  simp [ha.ne']

theorem add_eq_ok_iff : a.add b = .ok c ↔ c.toRat = a.toRat + b.toRat := by
  rw [add, Ratio.reduce_eq_ok_iff, toRat_sumRatio]
  exact and_iff_right (den_mul_den_ne_zero a b)

theorem sub_eq_ok_iff : a.sub b = .ok c ↔ c.toRat = a.toRat - b.toRat := by
  rw [sub, Ratio.reduce_eq_ok_iff, toRat_differenceRatio]
  exact and_iff_right (den_mul_den_ne_zero a b)

theorem mul_eq_ok_iff : a.mul b = .ok c ↔ c.toRat = a.toRat * b.toRat := by
  rw [mul, Ratio.reduce_eq_ok_iff, toRat_productRatio]
  exact and_iff_right (den_mul_den_ne_zero a b)

theorem div_eq_ok_iff : a.div b = .ok c ↔ b.toRat ≠ 0 ∧ c.toRat = a.toRat / b.toRat := by
  rw [div, Ratio.reduce_eq_ok_iff, toRat_quotientRatio, den_quotientRatio_ne_zero_iff]

theorem neg_eq_ok_iff : a.neg = .ok c ↔ c.toRat = -a.toRat := by
  rw [neg, Ratio.reduce_eq_ok_iff, toRat_negationRatio]
  exact and_iff_right (Int.natCast_ne_zero.mpr a.den_pos.ne')

/-! ## Failures -/

section
variable {e : ArithmeticError}

theorem sub_error (h : a.sub b = .error e) : e = .overflow :=
  Ratio.reduce_error (den_mul_den_ne_zero a b) h

theorem mul_error (h : a.mul b = .error e) : e = .overflow :=
  Ratio.reduce_error (den_mul_den_ne_zero a b) h

theorem neg_error (h : a.neg = .error e) : e = .overflow :=
  Ratio.reduce_error (Int.natCast_ne_zero.mpr a.den_pos.ne') h

theorem div_error (hb : b.toRat ≠ 0) (h : a.div b = .error e) : e = .overflow :=
  Ratio.reduce_error (den_quotientRatio_ne_zero_iff.mpr hb) h

end

end Fraction

end MatrixScript
