import MatrixScript.Fraction

/-!
# Grids and the elementary row operations

A `Grid` is a list of rows, not necessarily of one length.  The three elementary operations are
`swap`, `divideRow` and `subtractMultiple`; the last two fail when an entry leaves the range of
`Fraction`.
-/

namespace MatrixScript

abbrev Grid := List (List Fraction)

namespace Grid

/-- The length of the first row. -/
def width : Grid → Nat
  | [] => 0
  | row :: _ => row.length

/-- The index of the first row that is not as long as the first one. -/
def ragged? (g : Grid) : Option Nat := g.findIdx? (fun row => row.length != g.width)

/-- Positions outside the grid hold zero. -/
def entry (g : Grid) (i j : Nat) : Fraction := (g.getD i []).getD j 0

def column (g : Grid) (j : Nat) : List Fraction := g.map (·.getD j 0)

def identity (n : Nat) : Grid :=
  (List.range n).map fun i => (List.range n).map fun j => if i = j then 1 else 0

def beside (g h : Grid) : Grid := List.zipWith (· ++ ·) g h

def transpose (g : Grid) : Grid := (List.range g.width).map g.column

/-- Columns are separated by tabs and rows by line breaks. -/
def text (g : Grid) : String :=
  "\n".intercalate (g.map fun row => "\t".intercalate (row.map Fraction.text))

/-! ## Entrywise and row operations -/

/-- Stops at the first entry, row by row, for which `f` fails. -/
def mapEntries (f : Fraction → Except ArithmeticError Fraction) (g : Grid) :
    Except ArithmeticError Grid :=
  g.mapM (·.mapM f)

def zipEntries (f : Fraction → Fraction → Except ArithmeticError Fraction) (g h : Grid) :
    Except ArithmeticError Grid :=
  (g.zip h).mapM fun (r, s) => (r.zip s).mapM fun (x, y) => f x y

/-- The sum of the products, taken from left to right starting at zero. -/
def dot (xs ys : List Fraction) : Except ArithmeticError Fraction :=
  (xs.zip ys).foldlM (fun sum (x, y) => do sum.add (← x.mul y)) 0

def mul (g h : Grid) : Except ArithmeticError Grid :=
  g.mapM fun row => (List.range h.width).mapM fun j => dot row (h.column j)

def swap (g : Grid) (i j : Nat) : Grid := (g.set i (g.getD j [])).set j (g.getD i [])

/-- Subtracts `factor` times the second row from the first, as far as the second row goes. -/
def subtractMultiple (factor : Fraction) :
    List Fraction → List Fraction → Except ArithmeticError (List Fraction)
  | x :: xs, p :: ps => do
    let y ← x.sub (← factor.mul p)
    return y :: (← subtractMultiple factor xs ps)
  | xs, [] => return xs
  | [], _ :: _ => return []

def divideRow (g : Grid) (i : Nat) (divisor : Fraction) : Except ArithmeticError Grid := do
  return g.set i (← (g.getD i []).mapM (·.div divisor))

end Grid

end MatrixScript
