import MatrixScript.Infix
import MatrixScript.InvocationError
import MatrixScript.Reduction
import MatrixScript.Value

/-!
# Builtins

The functions and operators that every script can use, with the number of arguments they take and
what they do.  Only `print` touches the sink.
-/

namespace MatrixScript

/-! ## Output -/

/-- What has been written, and how many bytes may be written in all. -/
structure Sink where
  written : List UInt8 := []
  limit : Option Nat := none
deriving DecidableEq, Repr

def utf8Bytes (text : String) : List UInt8 := text.toList.flatMap String.utf8EncodeChar

/-- A text that does not fit is written as far as it does. -/
def Sink.write (text : String) : EStateM InvocationError Sink Unit := fun s =>
  let all := s.written ++ utf8Bytes text
  match s.limit with
  | none => .ok () { s with written := all }
  | some limit =>
    if all.length ≤ limit then .ok () { s with written := all }
    else .error (.output "sink is full") { s with written := all.take limit }

/-- Each value gets a line of its own. -/
def printAll : List Value → EStateM InvocationError Sink Unit
  | [] => return ()
  | v :: vs => do
    Sink.write (v.text ++ "\n")
    printAll vs

/-! ## Arity -/

inductive Arity
  | exact (n : Nat)
  | variadic
deriving DecidableEq, Repr

def Arity.check (arity : Arity) (name : String) (given : Nat) : Except InvocationError Unit :=
  match arity with
  | .exact expected =>
    if given > expected then .error (.tooManyArguments name expected given)
    else if given < expected then .error (.missingArgument name given expected given)
    else .ok ()
  | .variadic => .ok ()

/-! ## Operators on values -/

namespace BinaryOp

def onFractions : BinaryOp → Fraction → Fraction → Except ArithmeticError Fraction
  | .mul => Fraction.mul
  | .div => Fraction.div
  | .add => Fraction.add
  | .sub => Fraction.sub

/-- The operation on the values, where there is one: matrices can be added, subtracted and
multiplied, and multiplied and divided by a scalar. -/
def onValues? (op : BinaryOp) (x y : Value) : Option (Except MatrixError Value) :=
  match op, x, y with
  | .add, .matrix m, .matrix n => some (.matrix <$> m.add n)
  | .sub, .matrix m, .matrix n => some (.matrix <$> m.sub n)
  | .mul, .matrix m, .matrix n => some (.matrix <$> m.mul n)
  | .mul, .matrix m, y => y.toFraction?.map fun factor => .matrix <$> m.scale factor
  | .mul, x, .matrix n => x.toFraction?.map fun factor => .matrix <$> n.scale factor
  | .div, .matrix m, y => y.toFraction?.map fun divisor => .matrix <$> m.divScalar divisor
  | op, x, y =>
    match x.toFraction?, y.toFraction? with
    | some a, some b => some (Value.scalar <$> (op.onFractions a b).mapError .arithmetic)
    | _, _ => none

def apply (op : BinaryOp) (x y : Value) : Except InvocationError Value :=
  match op.onValues? x y with
  | some result => result.mapError (.ofMatrixError op.symbol)
  | none => .error (.invalidBinaryOperation op.symbol x.typeName y.typeName)

end BinaryOp

def Reduction.Result.toValue : Reduction.Result → Value
  | .matrix m => .matrix m
  | .scalar x => .scalar x
  | .count n => .integer (.ofNat n)

/-! ## The builtins -/

inductive Builtin
  | operator (op : BinaryOp)
  | print
  | transpose
  | reduction (r : Reduction)
deriving DecidableEq, Repr

namespace Builtin

def all : List Builtin :=
  BinaryOp.all.map .operator ++ [.print, .transpose] ++ Reduction.all.map .reduction

def name : Builtin → String
  | .operator op => op.symbol
  | .print => "print"
  | .transpose => "transpose"
  | .reduction r => r.name

def arity : Builtin → Arity
  | .operator _ => .exact 2
  | .print => .variadic
  | .transpose | .reduction _ => .exact 1

def ofName? (name : String) : Option Builtin := all.find? fun b => b.name == name

/-- Checks the number of arguments, then their types, then runs the builtin. -/
def apply (b : Builtin) (args : List Value) : EStateM InvocationError Sink Value := do
  ofExcept (b.arity.check b.name args.length)
  match b, args with
  | .operator op, x :: y :: _ => ofExcept (op.apply x y)
  | .print, args =>
    printAll args
    return .unit
  | .transpose, .matrix m :: _ => return .matrix m.transpose
  | .reduction r, .matrix m :: _ =>
    ofExcept (Reduction.Result.toValue <$> (r.apply m).mapError (.ofMatrixError r.name))
  | b, args =>
    throw (.typeMismatch b.name 0 "Matrix" ((args.head?.map Value.typeName).getD "Unit"))

end Builtin

end MatrixScript
