/-!
# Fractions that fit in 64 bits

A `Fraction` is a rational number in lowest terms whose numerator is a signed 64-bit number
and whose denominator is a positive one.  The operations compute an unreduced `Ratio` by cross
multiplication and then bring it to lowest terms; `Ratio.reduce` is the only place where a result
can fail.
-/

namespace MatrixScript

inductive ArithmeticError
  | overflow
  | divisionByZero
deriving DecidableEq, Repr

def ArithmeticError.message : ArithmeticError → String
  | .overflow => "arithmetic overflow"
  | .divisionByZero => "division by zero"

/-- The signed 64-bit numbers. -/
def InInt64 (n : Int) : Prop := -9223372036854775808 ≤ n ∧ n ≤ 9223372036854775807

instance (n : Int) : Decidable (InInt64 n) := inferInstanceAs (Decidable (_ ∧ _))

theorem inInt64_toInt (n : Int64) : InInt64 n.toInt := by
  have := n.le_toInt
  have := n.toInt_lt
  unfold InInt64
  omega

theorem toInt_ofInt_of_inInt64 {n : Int} (h : InInt64 n) : (Int64.ofInt n).toInt = n :=
  Int64.toInt_ofInt_of_le h.1 (Int.lt_add_one_of_le h.2)

structure Fraction where
  num : Int
  den : Nat
  num_range : InInt64 num
  den_range : InInt64 den
  den_pos : 0 < den
  reduced : num.natAbs.Coprime den
deriving DecidableEq, Repr

/-- A quotient of two whole numbers before it is brought to lowest terms. -/
structure Ratio where
  num : Int
  den : Int
deriving DecidableEq, Repr

/-! ## Lowest terms -/

namespace Ratio

def divisor (q : Ratio) : Nat := Int.gcd q.num q.den

/-- The numerator in lowest terms: it carries the sign of the quotient. -/
def lowestNum (q : Ratio) : Int := q.den.sign * (q.num / q.divisor)

/-- The denominator in lowest terms, positive unless the denominator is zero. -/
def lowestDen (q : Ratio) : Nat := q.den.natAbs / q.divisor

theorem divisor_pos {q : Ratio} (h : q.den ≠ 0) : 0 < q.divisor :=
  Int.gcd_pos_of_ne_zero_right _ h

theorem lowestDen_pos {q : Ratio} (h : q.den ≠ 0) : 0 < q.lowestDen :=
  Nat.div_pos (Nat.le_of_dvd (Int.natAbs_pos.2 h) (Nat.gcd_dvd_right _ _)) (divisor_pos h)

theorem natAbs_lowestNum {q : Ratio} (h : q.den ≠ 0) :
    q.lowestNum.natAbs = q.num.natAbs / q.divisor := by
  have hd : (q.divisor : Int) ∣ q.num := Int.gcd_dvd_left ..
  have hs : q.den.sign.natAbs = 1 := Int.natAbs_sign_of_ne_zero h
  rw [lowestNum, Int.natAbs_mul, hs, Nat.one_mul, Int.natAbs_ediv_of_dvd hd, Int.natAbs_natCast]

theorem coprime_lowest {q : Ratio} (h : q.den ≠ 0) :
    q.lowestNum.natAbs.Coprime q.lowestDen := by
  rw [natAbs_lowestNum h]
  exact Nat.coprime_div_gcd_div_gcd (divisor_pos h)

def reduce (q : Ratio) : Except ArithmeticError Fraction :=
  if hz : q.den = 0 then
    .error .divisionByZero
  else if hr : InInt64 q.lowestNum ∧ InInt64 q.lowestDen then
    .ok ⟨q.lowestNum, q.lowestDen, hr.1, hr.2, lowestDen_pos hz, coprime_lowest hz⟩
  else
    .error .overflow

end Ratio

/-! ## Arithmetic -/

namespace Fraction

def ofInt64 (n : Int64) : Fraction where
  num := n.toInt
  den := 1
  num_range := inInt64_toInt n
  den_range := by decide
  den_pos := Nat.one_pos
  reduced := Nat.coprime_one_right _

instance : OfNat Fraction 0 := ⟨ofInt64 0⟩
instance : OfNat Fraction 1 := ⟨ofInt64 1⟩
instance : Inhabited Fraction := ⟨0⟩

def ofInts (n d : Int) : Except ArithmeticError Fraction := Ratio.reduce ⟨n, d⟩

def sumRatio (a b : Fraction) : Ratio := ⟨a.num * b.den + b.num * a.den, a.den * b.den⟩
def differenceRatio (a b : Fraction) : Ratio := ⟨a.num * b.den - b.num * a.den, a.den * b.den⟩
def productRatio (a b : Fraction) : Ratio := ⟨a.num * b.num, a.den * b.den⟩
def quotientRatio (a b : Fraction) : Ratio := ⟨a.num * b.den, a.den * b.num⟩
def negationRatio (a : Fraction) : Ratio := ⟨-a.num, a.den⟩

def add (a b : Fraction) : Except ArithmeticError Fraction := (sumRatio a b).reduce
def sub (a b : Fraction) : Except ArithmeticError Fraction := (differenceRatio a b).reduce
def mul (a b : Fraction) : Except ArithmeticError Fraction := (productRatio a b).reduce
def div (a b : Fraction) : Except ArithmeticError Fraction := (quotientRatio a b).reduce
def neg (a : Fraction) : Except ArithmeticError Fraction := (negationRatio a).reduce

def isZero (a : Fraction) : Bool := a.num == 0

def isInteger (a : Fraction) : Bool := a.den == 1

def toInt64? (a : Fraction) : Option Int64 :=
  if a.isInteger then some (Int64.ofInt a.num) else none

/-- A whole number is written without its denominator. -/
def text (a : Fraction) : String :=
  if a.isInteger then toString a.num else toString a.num ++ "/" ++ toString a.den

end Fraction

end MatrixScript
