import Mathlib.Algebra.Order.Group.Unbundled.Int
import Mathlib.Algebra.Order.Ring.Int
import MatrixScript.Fraction

/-!
# Arithmetic in words

Operations on fractions carried out in 128-bit words, where a step can overflow, divide by zero or
lose its sign in a cast.  On fractions of 64 bits no step does, so words give the same results as
whole numbers.
-/

namespace MatrixScript

/-! ## Words -/

/-- A word of 128 bits, signed if nothing else is said. -/
abbrev Wide := BitVec 128

def Fraction.fields (a : Fraction) : Int64 × Int64 := (.ofInt a.num, .ofInt a.den)

inductive WordFault
  | overflow
  | divisionByZero
  | lossyCast
deriving DecidableEq, Repr

namespace Wide

def InRange (n : Int) : Prop := -2 ^ 127 ≤ n ∧ n < 2 ^ 127

def ofInt (n : Int) : Wide := BitVec.ofInt 128 n

def checked (overflows : Bool) (x : Wide) : Except WordFault Wide :=
  if overflows then .error .overflow else .ok x

def sum (x y : Wide) : Except WordFault Wide := checked (x.saddOverflow y) (x + y)

def difference (x y : Wide) : Except WordFault Wide := checked (x.ssubOverflow y) (x - y)

def product (x y : Wide) : Except WordFault Wide := checked (x.smulOverflow y) (x * y)

def negation (x : Wide) : Except WordFault Wide := checked x.negOverflow (-x)

def quotient (x y : Wide) : Except WordFault Wide :=
  if y = 0 then .error .divisionByZero else checked (x.sdivOverflow y) (x.sdiv y)

/-- Of unsigned words. -/
def gcd (x y : Wide) : Wide := if y = 0 then x else gcd y (x % y)
termination_by y.toNat
decreasing_by
  rw [BitVec.toNat_umod]
  exact Nat.mod_lt _ (Nat.pos_of_ne_zero fun h => ‹¬y = 0› (BitVec.eq_of_toNat_eq h))

/-- Takes an unsigned word for a signed one. -/
def ofUnsigned (x : Wide) : Except WordFault Wide :=
  if x.msb then .error .lossyCast else .ok x

def narrow (x : Wide) : Except ArithmeticError Int64 :=
  if InInt64 x.toInt then .ok (.ofInt x.toInt) else .error .overflow

def narrowed (num den : Wide) : Except ArithmeticError (Int64 × Int64) := do
  return (← narrow num, ← narrow den)

def signedQuotient (sign n divisor : Wide) : Except WordFault Wide := do
  product sign (← quotient n divisor)

def lowest (n d : Wide) : Except WordFault (Except ArithmeticError (Int64 × Int64)) := do
  if d = 0 then return .error .divisionByZero
  let divisor ← ofUnsigned (gcd n.abs d.abs)
  let sign : Wide := if d.slt 0 then -1 else 1
  let num ← signedQuotient sign n divisor
  let den ← signedQuotient sign d divisor
  return narrowed num den

/-! ## Steps that stay in range -/

section
variable {m n : Int}

theorem toInt_ofInt (h : InRange n) : (ofInt n).toInt = n :=
  BitVec.toInt_ofInt_eq_self (by decide) h.1 h.2

theorem ofInt_ne_zero (h : InRange n) (hn : n ≠ 0) : ofInt n ≠ 0 := by
  intro h0
  have hint : (ofInt n).toInt = 0 := by rw [h0]; rfl
  exact hn (toInt_ofInt h ▸ hint)

theorem inRange_of_natAbs (h : n.natAbs < 2 ^ 127) : InRange n := by
  unfold InRange
  omega

theorem sum_ofInt (hm : InRange m) (hn : InRange n) (h : InRange (m + n)) :
    sum (ofInt m) (ofInt n) = .ok (ofInt (m + n)) := by
  have hfits : (ofInt m).saddOverflow (ofInt n) = false := by
    unfold InRange at h
    rw [BitVec.saddOverflow, toInt_ofInt hm, toInt_ofInt hn, Bool.or_eq_false_iff]
    exact ⟨decide_eq_false (by omega), decide_eq_false (by omega)⟩
  rw [sum, hfits, ofInt, ofInt, ofInt, BitVec.ofInt_add]
  rfl

theorem difference_ofInt (hm : InRange m) (hn : InRange n) (h : InRange (m - n)) :
    difference (ofInt m) (ofInt n) = .ok (ofInt (m - n)) := by
  have hfits : (ofInt m).ssubOverflow (ofInt n) = false := by
    unfold InRange at h
    rw [BitVec.ssubOverflow, toInt_ofInt hm, toInt_ofInt hn, Bool.or_eq_false_iff]
    exact ⟨decide_eq_false (by omega), decide_eq_false (by omega)⟩
  have hsub : ofInt (m - n) = ofInt m - ofInt n := by
    rw [ofInt, Int.sub_eq_add_neg, BitVec.ofInt_add, BitVec.ofInt_neg, ← BitVec.sub_eq_add_neg]
    rfl
  rw [difference, hfits, hsub]
  rfl

theorem product_ofInt (hm : InRange m) (hn : InRange n) (h : InRange (m * n)) :
    product (ofInt m) (ofInt n) = .ok (ofInt (m * n)) := by
  have hfits : (ofInt m).smulOverflow (ofInt n) = false := by
    unfold InRange at h
    rw [BitVec.smulOverflow, toInt_ofInt hm, toInt_ofInt hn, Bool.or_eq_false_iff]
    exact ⟨decide_eq_false (by omega), decide_eq_false (by omega)⟩
  rw [product, hfits, ofInt, ofInt, ofInt, BitVec.ofInt_mul]
  rfl

theorem negation_ofInt (hn : InRange n) (h : InRange (-n)) :
    negation (ofInt n) = .ok (ofInt (-n)) := by
  have hfits : (ofInt n).negOverflow = false := by
    unfold InRange at h
    rw [BitVec.negOverflow, toInt_ofInt hn, beq_eq_false_iff_ne]
    omega
  rw [negation, hfits, ofInt, ofInt, BitVec.ofInt_neg]
  rfl

/-- A quotient that leaves no remainder. -/
theorem quotient_ofInt (hm : InRange m) (hn : InRange n) (hpos : 0 < n) (hdvd : n ∣ m) :
    quotient (ofInt m) (ofInt n) = .ok (ofInt (m / n)) := by
  have hle : (m / n).natAbs ≤ m.natAbs := by
    rw [Int.natAbs_ediv_of_dvd hdvd]
    exact Nat.div_le_self _ _
  have hsign : 0 ≤ m → 0 ≤ m / n := fun h => Int.ediv_nonneg h (Int.le_of_lt hpos)
  have hfits : (ofInt m).sdivOverflow (ofInt n) = false := by
    unfold InRange at hm
    rw [BitVec.sdivOverflow, toInt_ofInt hm, toInt_ofInt hn, Bool.or_eq_false_iff]
    have hneg : m < 0 → m / n < 0 := fun h => Int.ediv_neg_of_neg_of_pos h hpos
    exact ⟨decide_eq_false (by omega), decide_eq_false (by omega)⟩
  have hdiv : (ofInt m).sdiv (ofInt n) = ofInt (m / n) := by
    apply BitVec.eq_of_toInt_eq
    rw [BitVec.toInt_sdiv, toInt_ofInt hm, toInt_ofInt hn, Int.tdiv_eq_ediv_of_dvd hdvd]
    exact (BitVec.toInt_ofInt _).symm
  rw [quotient, if_neg (ofInt_ne_zero hn hpos.ne'), hfits, hdiv]
  rfl

end

/-! ## The divisor -/

theorem toNat_gcd (x y : Wide) : (gcd x y).toNat = Nat.gcd x.toNat y.toNat := by
  induction x, y using gcd.induct with
  | case1 x => rw [gcd, if_pos rfl]; exact (Nat.gcd_zero_right _).symm
  | case2 x y hy ih =>
    rw [gcd, if_neg hy, ih, BitVec.toNat_umod, Nat.gcd_comm y.toNat, ← Nat.gcd_rec, Nat.gcd_comm]

theorem gcd_eq_zero_iff {x y : Wide} : gcd x y = 0 ↔ x = 0 ∧ y = 0 := by
  simp only [← BitVec.toNat_inj, toNat_gcd]
  exact Nat.gcd_eq_zero_iff

/-- The absolute value is an unsigned word, whatever the signed one is. -/
theorem toNat_abs (x : Wide) : x.abs.toNat = x.toInt.natAbs := by
  have hlt := x.isLt
  rw [BitVec.toNat_abs, BitVec.toInt_eq_toNat_cond]
  by_cases h : 2 * x.toNat < 2 ^ 128
  · rw [if_pos h, BitVec.msb_eq_false_iff_two_mul_lt.mpr h]
    rfl
  · rw [if_neg h, BitVec.msb_eq_true_iff_two_mul_ge.mpr (Nat.le_of_not_lt h), if_pos rfl]
    omega

theorem divisor_lt {q : Ratio} (hd : q.den.natAbs < 2 ^ 127) (hz : q.den ≠ 0) :
    q.divisor < 2 ^ 127 :=
  Nat.lt_of_le_of_lt (Nat.gcd_le_right _ (Int.natAbs_pos.mpr hz)) hd

theorem ofUnsigned_gcd {q : Ratio} (hn : InRange q.num) (hd : q.den.natAbs < 2 ^ 127)
    (hz : q.den ≠ 0) :
    ofUnsigned (gcd (ofInt q.num).abs (ofInt q.den).abs) = .ok (ofInt q.divisor) := by
  have hlt := divisor_lt hd hz
  have htoNat : (gcd (ofInt q.num).abs (ofInt q.den).abs).toNat = q.divisor := by
    rw [toNat_gcd, toNat_abs, toNat_abs, toInt_ofInt hn, toInt_ofInt (inRange_of_natAbs hd)]
    rfl
  have hmsb : (gcd (ofInt q.num).abs (ofInt q.den).abs).msb = false := by
    rw [BitVec.msb_eq_false_iff_two_mul_lt, htoNat]
    omega
  rw [ofUnsigned, hmsb, if_neg Bool.false_ne_true]
  refine congrArg Except.ok (BitVec.eq_of_toNat_eq ?_)
  rw [htoNat, ofInt, BitVec.ofInt_natCast, BitVec.toNat_ofNat, Nat.mod_eq_of_lt (by omega)]

/-! ## Lowest terms -/

theorem sign_ofInt {d : Int} (hd : InRange d) (hz : d ≠ 0) :
    (if (ofInt d).slt 0 then -1 else 1 : Wide) = ofInt d.sign := by
  have hslt : (ofInt d).slt 0 = decide (d < 0) := by
    rw [BitVec.slt_eq_decide, toInt_ofInt hd]
    rfl
  rw [hslt]
  rcases lt_or_gt_of_ne hz with h | h
  · rw [decide_eq_true h, if_pos rfl, Int.sign_eq_neg_one_of_neg h]
    rfl
  · rw [decide_eq_false h.asymm, if_neg Bool.false_ne_true, Int.sign_eq_one_of_pos h]
    rfl

theorem signedQuotient_ofInt {q : Ratio} (hd : q.den.natAbs < 2 ^ 127) (hz : q.den ≠ 0) {n : Int}
    (hn : n.natAbs < 2 ^ 127) (hdvd : (q.divisor : Int) ∣ n) :
    signedQuotient (ofInt q.den.sign) (ofInt n) (ofInt q.divisor) =
      .ok (ofInt (q.den.sign * (n / q.divisor))) := by
  have hdivisor : InRange q.divisor := inRange_of_natAbs (divisor_lt hd hz)
  have hpos : (0 : Int) < q.divisor := Int.natCast_pos.mpr (Ratio.divisor_pos hz)
  have hle : (n / q.divisor).natAbs ≤ n.natAbs := by
    rw [Int.natAbs_ediv_of_dvd hdvd]
    exact Nat.div_le_self _ _
  have hsign : q.den.sign.natAbs = 1 := Int.natAbs_sign_of_ne_zero hz
  have hproduct : (q.den.sign * (n / q.divisor)).natAbs ≤ n.natAbs := by
    rw [Int.natAbs_mul, hsign, Nat.one_mul]
    exact hle
  rw [signedQuotient, quotient_ofInt (inRange_of_natAbs hn) hdivisor hpos hdvd]
  exact product_ofInt (inRange_of_natAbs (by omega)) (inRange_of_natAbs (by omega))
    (inRange_of_natAbs (by omega))

theorem narrow_ofInt {n : Int} (hn : InRange n) :
    narrow (ofInt n) = if InInt64 n then .ok (.ofInt n) else .error .overflow := by
  rw [narrow, toInt_ofInt hn]

theorem sign_mul_ediv_divisor {q : Ratio} : q.den.sign * (q.den / q.divisor) = q.lowestDen := by
  have hdvd : (q.divisor : Int) ∣ q.den := Int.gcd_dvd_right ..
  rw [← Int.mul_ediv_assoc _ hdvd, Int.sign_mul_self_eq_natAbs, Ratio.lowestDen]
  rfl

theorem narrowed_lowest {q : Ratio} (hn : q.num.natAbs < 2 ^ 127) (hd : q.den.natAbs < 2 ^ 127)
    (hz : q.den ≠ 0) :
    narrowed (ofInt q.lowestNum) (ofInt q.lowestDen) = q.reduce.map Fraction.fields := by
  have hnum : InRange q.lowestNum := by
    apply inRange_of_natAbs
    rw [Ratio.natAbs_lowestNum hz]
    exact Nat.lt_of_le_of_lt (Nat.div_le_self _ _) hn
  have hden : InRange q.lowestDen :=
    inRange_of_natAbs (Nat.lt_of_le_of_lt (Nat.div_le_self _ _) hd)
  rw [narrowed, narrow_ofInt hnum, narrow_ofInt hden, Ratio.reduce, dif_neg hz]
  by_cases hn64 : InInt64 q.lowestNum
  · by_cases hd64 : InInt64 q.lowestDen
    · rw [if_pos hn64, if_pos hd64, dif_pos ⟨hn64, hd64⟩]
      rfl
    · rw [if_pos hn64, if_neg hd64, dif_neg fun h => hd64 h.2]
      rfl
  · rw [if_neg hn64, dif_neg fun h => hn64 h.1]
    rfl

theorem lowest_ofInt {q : Ratio} (hn : q.num.natAbs < 2 ^ 127) (hd : q.den.natAbs < 2 ^ 127) :
    lowest (ofInt q.num) (ofInt q.den) = .ok (q.reduce.map Fraction.fields) := by
  by_cases hz : q.den = 0
  · have hzero : ofInt q.den = 0 := by rw [hz]; rfl
    rw [lowest, if_pos hzero, Ratio.reduce, dif_pos hz]
    rfl
  · have hnum := signedQuotient_ofInt hd hz hn (Int.gcd_dvd_left ..)
    have hden := signedQuotient_ofInt hd hz hd (Int.gcd_dvd_right ..)
    have hdenRange := inRange_of_natAbs hd
    rw [lowest, if_neg (ofInt_ne_zero hdenRange hz), ofUnsigned_gcd (inRange_of_natAbs hn) hd hz]
    dsimp only [bind, Except.bind]
    rw [sign_ofInt hdenRange hz, hnum, hden, sign_mul_ediv_divisor]
    exact congrArg Except.ok (narrowed_lowest hn hd hz)

end Wide

/-! ## Fractions -/

namespace Fraction

open Wide

section
variable (a b : Fraction)

def crossInWords (combine : Wide → Wide → Except WordFault Wide) :
    Except WordFault (Except ArithmeticError (Int64 × Int64)) := do
  let left ← product (ofInt a.num) (ofInt b.den)
  let right ← product (ofInt b.num) (ofInt a.den)
  let num ← combine left right
  let den ← product (ofInt a.den) (ofInt b.den)
  lowest num den

def addInWords := crossInWords a b sum

def subInWords := crossInWords a b difference

def mulInWords : Except WordFault (Except ArithmeticError (Int64 × Int64)) := do
  let num ← product (ofInt a.num) (ofInt b.num)
  let den ← product (ofInt a.den) (ofInt b.den)
  lowest num den

def divInWords : Except WordFault (Except ArithmeticError (Int64 × Int64)) := do
  let num ← product (ofInt a.num) (ofInt b.den)
  let den ← product (ofInt a.den) (ofInt b.num)
  lowest num den

def negInWords : Except WordFault (Except ArithmeticError (Int64 × Int64)) := do
  let num ← negation (ofInt a.num)
  lowest num (ofInt a.den)

end

def ofIntsInWords (n d : Int64) : Except WordFault (Except ArithmeticError (Int64 × Int64)) :=
  lowest (ofInt n.toInt) (ofInt d.toInt)

/-! ### Bounds -/

variable {a b : Fraction} {m n : Int}

theorem natAbs_le_of_inInt64 (h : InInt64 n) : n.natAbs ≤ 2 ^ 63 := by
  unfold InInt64 at h
  omega

/-- One less than a numerator can be, so that two cross products can be added. -/
theorem natAbs_den_le (a : Fraction) : (a.den : Int).natAbs ≤ 2 ^ 63 - 1 := by
  have h := a.den_range
  unfold InInt64 at h
  omega

theorem natAbs_mul_le {j k : Nat} (hm : m.natAbs ≤ j) (hn : n.natAbs ≤ k) :
    (m * n).natAbs ≤ j * k := by
  rw [Int.natAbs_mul]
  exact Nat.mul_le_mul hm hn

theorem natAbs_cross_le (a b : Fraction) : (a.num * b.den).natAbs ≤ 2 ^ 63 * (2 ^ 63 - 1) :=
  natAbs_mul_le (natAbs_le_of_inInt64 a.num_range) b.natAbs_den_le

theorem product_of_natAbs {j k : Nat} (hm : m.natAbs ≤ j) (hn : n.natAbs ≤ k)
    (hj : j ≤ 2 ^ 63) (hk : k ≤ 2 ^ 63) :
    product (ofInt m) (ofInt n) = .ok (ofInt (m * n)) := by
  have hmul := (natAbs_mul_le hm hn).trans (Nat.mul_le_mul hj hk)
  exact product_ofInt (inRange_of_natAbs (by omega)) (inRange_of_natAbs (by omega))
    (inRange_of_natAbs (by omega))

/-! ### The operations -/

theorem product_dens (a b : Fraction) :
    product (ofInt a.den) (ofInt b.den) = .ok (ofInt (a.den * b.den)) :=
  product_of_natAbs a.natAbs_den_le b.natAbs_den_le (by decide) (by decide)

theorem product_cross (a b : Fraction) :
    product (ofInt a.num) (ofInt b.den) = .ok (ofInt (a.num * b.den)) :=
  product_of_natAbs (natAbs_le_of_inInt64 a.num_range) b.natAbs_den_le (Nat.le_refl _) (by decide)

theorem natAbs_dens_lt (a b : Fraction) : ((a.den : Int) * b.den).natAbs < 2 ^ 127 :=
  Nat.lt_of_le_of_lt (natAbs_mul_le a.natAbs_den_le b.natAbs_den_le) (by decide)

theorem crossInWords_eq {combine : Wide → Wide → Except WordFault Wide}
    (h : combine (ofInt (a.num * b.den)) (ofInt (b.num * a.den)) = .ok (ofInt n))
    (hn : n.natAbs < 2 ^ 127) :
    crossInWords a b combine = .ok ((Ratio.reduce ⟨n, a.den * b.den⟩).map fields) := by
  rw [crossInWords, product_cross a b, product_cross b a]
  dsimp only [bind, Except.bind]
  rw [h, product_dens a b]
  exact lowest_ofInt (q := ⟨n, a.den * b.den⟩) hn (natAbs_dens_lt a b)

theorem addInWords_eq (a b : Fraction) : a.addInWords b = .ok ((a.add b).map fields) := by
  have ha := natAbs_cross_le a b
  have hb := natAbs_cross_le b a
  have hsum : (a.num * b.den + b.num * a.den).natAbs < 2 ^ 127 :=
    Nat.lt_of_le_of_lt (Int.natAbs_add_le _ _) (by omega)
  exact crossInWords_eq (sum_ofInt (inRange_of_natAbs (by omega)) (inRange_of_natAbs (by omega))
    (inRange_of_natAbs hsum)) hsum

theorem subInWords_eq (a b : Fraction) : a.subInWords b = .ok ((a.sub b).map fields) := by
  have ha := natAbs_cross_le a b
  have hb := natAbs_cross_le b a
  have hdifference : (a.num * b.den - b.num * a.den).natAbs < 2 ^ 127 :=
    Nat.lt_of_le_of_lt (Int.natAbs_sub_le _ _) (by omega)
  exact crossInWords_eq (difference_ofInt (inRange_of_natAbs (by omega))
    (inRange_of_natAbs (by omega)) (inRange_of_natAbs hdifference)) hdifference

theorem mulInWords_eq (a b : Fraction) : a.mulInWords b = .ok ((a.mul b).map fields) := by
  have ha := natAbs_le_of_inInt64 a.num_range
  have hb := natAbs_le_of_inInt64 b.num_range
  have hnum : (a.num * b.num).natAbs < 2 ^ 127 :=
    Nat.lt_of_le_of_lt (natAbs_mul_le ha hb) (by decide)
  rw [mulInWords, product_of_natAbs ha hb (Nat.le_refl _) (Nat.le_refl _)]
  dsimp only [bind, Except.bind]
  rw [product_dens a b]
  exact lowest_ofInt (q := productRatio a b) hnum (natAbs_dens_lt a b)

theorem divInWords_eq (a b : Fraction) : a.divInWords b = .ok ((a.div b).map fields) := by
  have hb := natAbs_le_of_inInt64 b.num_range
  have hnum : (a.num * b.den).natAbs < 2 ^ 127 :=
    Nat.lt_of_le_of_lt (natAbs_cross_le a b) (by decide)
  have hden : (a.den * b.num).natAbs < 2 ^ 127 :=
    Nat.lt_of_le_of_lt (natAbs_mul_le a.natAbs_den_le hb) (by decide)
  rw [divInWords, product_cross a b]
  dsimp only [bind, Except.bind]
  rw [product_of_natAbs a.natAbs_den_le hb (by decide) (Nat.le_refl _)]
  exact lowest_ofInt (q := quotientRatio a b) hnum hden

theorem negInWords_eq (a : Fraction) : a.negInWords = .ok (a.neg.map fields) := by
  have ha := natAbs_le_of_inInt64 a.num_range
  have hden := a.natAbs_den_le
  rw [negInWords, negation_ofInt (inRange_of_natAbs (by omega)) (inRange_of_natAbs (by omega))]
  exact lowest_ofInt (q := negationRatio a) (by simp only [negationRatio]; omega)
    (by simp only [negationRatio]; omega)

theorem ofIntsInWords_eq (n d : Int64) :
    ofIntsInWords n d = .ok ((ofInts n.toInt d.toInt).map fields) := by
  have hn := natAbs_le_of_inInt64 (inInt64_toInt n)
  have hd := natAbs_le_of_inInt64 (inInt64_toInt d)
  exact lowest_ofInt (q := ⟨n.toInt, d.toInt⟩) (Nat.lt_of_le_of_lt hn (by decide))
    (Nat.lt_of_le_of_lt hd (by decide))

end Fraction

/-- In words of 128 bits no step of an operation overflows, divides by zero or loses a sign, so the
result is the one in whole numbers.  Only zeros have zero for their divisor. -/
theorem words_suffice :
    (∀ a b : Fraction,
      a.addInWords b = .ok ((a.add b).map Fraction.fields) ∧
      a.subInWords b = .ok ((a.sub b).map Fraction.fields) ∧
      a.mulInWords b = .ok ((a.mul b).map Fraction.fields) ∧
      a.divInWords b = .ok ((a.div b).map Fraction.fields) ∧
      a.negInWords = .ok (a.neg.map Fraction.fields)) ∧
    (∀ n d : Int64, Fraction.ofIntsInWords n d =
      .ok ((Fraction.ofInts n.toInt d.toInt).map Fraction.fields)) ∧
    ∀ x y : Wide, Wide.gcd x y = 0 ↔ x = 0 ∧ y = 0 :=
  ⟨fun a b => ⟨a.addInWords_eq b, a.subInWords_eq b, a.mulInWords_eq b, a.divInWords_eq b,
    a.negInWords_eq⟩, Fraction.ofIntsInWords_eq, fun _ _ => Wide.gcd_eq_zero_iff⟩

/-- The largest cross products that there are. -/
example :
    let a : Fraction := ⟨-9223372036854775808, 9223372036854775807, by decide, by decide,
      by decide, by decide⟩
    a.addInWords a = .ok (.error .overflow) ∧ a.subInWords a = .ok (.ok (0, 1)) ∧
      a.divInWords a = .ok (.ok (1, 1)) := by
  intro a
  refine ⟨(a.addInWords_eq a).trans ?_, (a.subInWords_eq a).trans ?_,
    (a.divInWords_eq a).trans ?_⟩ <;> decide +kernel

end MatrixScript
