import MatrixScript.Grid

/-!
# Gaussian elimination

One pass over the columns of a grid, with three switches for what happens at a pivot.  Each column
either gets a pivot in the current row or is left without one, so `eliminate` is a fold of `step`
over the columns.
-/

namespace MatrixScript

/-- `normalize` divides each pivot row by its pivot, `above` also clears the rows above a pivot,
and `diagonal` looks for pivots on the diagonal only. -/
structure Mode where
  normalize : Bool
  above : Bool
  diagonal : Bool
deriving DecidableEq, Repr

structure Elimination where
  grid : Grid
  /-- The row that the next pivot goes to. -/
  row : Nat
  pivots : List (Nat × Nat)
  swaps : Nat
deriving DecidableEq, Repr

namespace Elimination

/-- The first row at or below `r` whose entry in column `c` is not zero. -/
def pivotRow? (g : Grid) (r c : Nat) : Option Nat :=
  (List.range' r (g.length - r)).find? fun k => !(g.entry k c).isZero

/-- Subtracts the multiple of the pivot row that makes column `c` of `row` zero. -/
def clearRow (pivotRow : List Fraction) (c : Nat) (row : List Fraction) :
    Except ArithmeticError (List Fraction) := do
  let factor ← (row.getD c 0).div (pivotRow.getD c 0)
  Grid.subtractMultiple factor row pivotRow

/-- Clears column `c` of the rows below row `r`, and of those above it if `above` is set.  A row
that has a zero there already stays as it is. -/
def clearColumn (above : Bool) (g : Grid) (r c : Nat) : Except ArithmeticError Grid :=
  g.zipIdx.mapM fun (row, i) =>
    if i = r ∨ (i < r ∧ ¬above) ∨ (row.getD c 0).isZero then
      return row
    else
      clearRow (g.getD r []) c row

/-- A column without a pivot keeps the current row for the next column, or uses it up when pivots
have to lie on the diagonal. -/
def step (mode : Mode) (s : Elimination) (c : Nat) : Except ArithmeticError Elimination :=
  if s.row < s.grid.length then
    match pivotRow? s.grid s.row c with
    | none => return { s with row := if mode.diagonal then s.row + 1 else s.row }
    | some k => do
      let swapped := s.grid.swap s.row k
      let cleared ← clearColumn mode.above swapped s.row c
      let finished ←
        if mode.normalize then cleared.divideRow s.row (swapped.entry s.row c) else pure cleared
      return {
        grid := finished
        row := s.row + 1
        pivots := s.pivots ++ [(s.row, c)]
        swaps := if k = s.row then s.swaps else s.swaps + 1 }
  else
    return s

end Elimination

/-- Eliminates with pivots from the first `pivotCols` columns of the grid. -/
def eliminate (g : Grid) (pivotCols : Nat) (mode : Mode) : Except ArithmeticError Elimination :=
  (List.range pivotCols).foldlM (Elimination.step mode) ⟨g, 0, [], 0⟩

end MatrixScript
