import MatrixScript.Elimination
import MatrixScript.RatMatrix

/-!
# Reductions of a matrix

Six reductions run the elimination on the rows of a matrix.  They differ in their mode, in whether
they need a square matrix, and in what they read off the result.
-/

namespace MatrixScript

inductive Reduction
  | rref
  | toDiagonal
  | toTriangle
  | inverse
  | determinant
  | rank
deriving DecidableEq, Repr

namespace Reduction

def all : List Reduction := [.rref, .toDiagonal, .toTriangle, .inverse, .determinant, .rank]

def name : Reduction → String
  | .rref => "rref"
  | .toDiagonal => "to_diag"
  | .toTriangle => "to_triangle"
  | .inverse => "inv"
  | .determinant => "det"
  | .rank => "rank"

def mode : Reduction → Mode
  | .rref | .inverse => { normalize := true, above := true, diagonal := false }
  | .toDiagonal => { normalize := false, above := true, diagonal := true }
  | .toTriangle => { normalize := false, above := false, diagonal := true }
  | .determinant | .rank => { normalize := false, above := true, diagonal := false }

def requiresSquare : Reduction → Bool
  | .inverse | .determinant => true
  | .rref | .toDiagonal | .toTriangle | .rank => false

/-- The grid to eliminate: the inverse needs an identity beside the matrix. -/
def start (r : Reduction) (m : RatMatrix) : Grid :=
  match r with
  | .inverse => m.rows.beside (Grid.identity m.width)
  | _ => m.rows

/-- The elimination behind the reduction; pivots come from the columns of `m` only. -/
def run (r : Reduction) (m : RatMatrix) : Except MatrixError Elimination :=
  if r.requiresSquare && !m.isSquare then
    .error (.notSquare m.height m.width)
  else
    (eliminate (r.start m) m.width r.mode).mapError .arithmetic

end Reduction

/-- The product of the diagonal from the top, with the sign of the row swaps. -/
def Elimination.signedDiagonal (e : Elimination) : Except ArithmeticError Fraction := do
  let sign ← if e.swaps % 2 = 0 then pure 1 else Fraction.neg 1
  e.grid.zipIdx.foldlM (fun product (row, i) => product.mul (row.getD i 0)) sign

namespace RatMatrix

def rref (m : RatMatrix) : Except MatrixError RatMatrix := do
  ofRows (← Reduction.rref.run m).grid

def toDiagonal (m : RatMatrix) : Except MatrixError RatMatrix := do
  ofRows (← Reduction.toDiagonal.run m).grid

def toTriangle (m : RatMatrix) : Except MatrixError RatMatrix := do
  ofRows (← Reduction.toTriangle.run m).grid

/-- The block beside the matrix, once the matrix itself has become the identity. -/
def inverse (m : RatMatrix) : Except MatrixError RatMatrix := do
  let e ← Reduction.inverse.run m
  if e.pivots.length < m.height then .error .singular
  else ofRows (e.grid.map (·.drop m.width))

def determinant (m : RatMatrix) : Except MatrixError Fraction := do
  let e ← Reduction.determinant.run m
  if e.pivots.length < m.height then return 0
  else e.signedDiagonal.mapError .arithmetic

def rank (m : RatMatrix) : Except MatrixError Nat := do
  return (← Reduction.rank.run m).pivots.length

end RatMatrix

namespace Reduction

/-- What a reduction gives: a matrix, a number, or a number of pivots. -/
inductive Result
  | matrix (m : RatMatrix)
  | scalar (x : Fraction)
  | count (n : Nat)
deriving DecidableEq, Repr

def apply (r : Reduction) (m : RatMatrix) : Except MatrixError Result :=
  match r with
  | .rref => .matrix <$> m.rref
  | .toDiagonal => .matrix <$> m.toDiagonal
  | .toTriangle => .matrix <$> m.toTriangle
  | .inverse => .matrix <$> m.inverse
  | .determinant => .scalar <$> m.determinant
  | .rank => .count <$> m.rank

end Reduction

end MatrixScript
