import MatrixScript.RatMatrix

/-!
# Values

What an expression evaluates to.  Scalars are integers where possible: `Value.scalar` is how results
become values.
-/

namespace MatrixScript

inductive Value
  | integer (n : Int64)
  | rational (r : Fraction)
  | matrix (m : RatMatrix)
  | symbol (name : String)
  | unit
deriving DecidableEq, Repr

namespace Value

def typeName : Value → String
  | .integer _ => "Integer"
  | .rational _ => "Rational"
  | .matrix _ => "Matrix"
  | .symbol _ => "Symbol"
  | .unit => "Unit"

/-- A whole number becomes an integer. -/
def scalar (r : Fraction) : Value :=
  match r.toInt64? with
  | some n => .integer n
  | none => .rational r

def toFraction? : Value → Option Fraction
  | .integer n => some (.ofInt64 n)
  | .rational r => some r
  | _ => none

def isScalar (v : Value) : Bool := v.toFraction?.isSome

def isUnit (v : Value) : Bool := v == .unit

/-- The negated value, for the types that have one. -/
def neg? : Value → Option (Except MatrixError Value)
  | .integer n => some (scalar <$> (Fraction.ofInt64 n).neg.mapError .arithmetic)
  | .rational r => some (scalar <$> r.neg.mapError .arithmetic)
  | .matrix m => some (.matrix <$> m.neg)
  | .symbol _ | .unit => none

/-- Equality of values compares scalars as numbers. -/
def equal : Value → Value → Bool
  | .matrix m, .matrix n => m == n
  | .symbol s, .symbol t => s == t
  | .unit, .unit => true
  | v, w =>
    match v.toFraction?, w.toFraction? with
    | some a, some b => a == b
    | _, _ => false

def text : Value → String
  | .integer n => toString n.toInt
  | .rational r => r.text
  | .matrix m => m.text
  | .symbol name => name
  | .unit => "()"

end Value

end MatrixScript
