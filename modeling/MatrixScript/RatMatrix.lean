import MatrixScript.Grid

/-!
# Matrices of fractions

A `RatMatrix` is a grid with at least one row and one column and with rows of equal length.
`ofRows` is the only way into the type that can refuse a grid, and it says why.
-/

namespace MatrixScript

inductive MatrixError
  | empty
  | ragged (row expected found : Nat)
  | shapeMismatch (op : String) (left right : Nat × Nat)
  | notSquare (rows cols : Nat)
  | singular
  | arithmetic (error : ArithmeticError)
deriving DecidableEq, Repr

def shapeText (shape : Nat × Nat) : String := s!"{shape.1}x{shape.2}"

def MatrixError.message : MatrixError → String
  | .empty => "a matrix must have at least one row and one column"
  | .ragged row expected found =>
    s!"row {row + 1} has {found} element(s), but the first row has {expected}"
  | .shapeMismatch op left right =>
    s!"cannot apply `{op}` to a {shapeText left} matrix and a {shapeText right} matrix"
  | .notSquare rows cols => s!"expected a square matrix, found a {shapeText (rows, cols)} matrix"
  | .singular => "the matrix is singular"
  | .arithmetic error => error.message

structure RatMatrix where
  rows : Grid
  width_pos : 0 < rows.width
  rectangular : ∀ row ∈ rows, row.length = rows.width
deriving DecidableEq, Repr

namespace RatMatrix

def height (m : RatMatrix) : Nat := m.rows.length
def width (m : RatMatrix) : Nat := m.rows.width
def shape (m : RatMatrix) : Nat × Nat := (m.height, m.width)
def isSquare (m : RatMatrix) : Bool := m.height == m.width

theorem length_eq_of_ragged?_eq_none {g : Grid} (h : g.ragged? = none) :
    ∀ row ∈ g, row.length = g.width := by
  intro row hrow
  have := List.findIdx?_eq_none_iff.1 h row hrow
  simpa using this

def ofRows (rows : Grid) : Except MatrixError RatMatrix :=
  if hw : 0 < rows.width then
    match hr : rows.ragged? with
    | none => .ok ⟨rows, hw, length_eq_of_ragged?_eq_none hr⟩
    | some i => .error (.ragged i rows.width (rows.getD i []).length)
  else
    .error .empty

def identity (n : Nat) : Except MatrixError RatMatrix := ofRows (Grid.identity n)

def get? (m : RatMatrix) (i j : Nat) : Option Fraction := m.rows[i]?.bind (·[j]?)

def text (m : RatMatrix) : String := m.rows.text

def ofResult (rows : Except ArithmeticError Grid) : Except MatrixError RatMatrix := do
  ofRows (← rows.mapError .arithmetic)

/-! ## Arithmetic -/

def add (m n : RatMatrix) : Except MatrixError RatMatrix :=
  if m.shape = n.shape then ofResult (m.rows.zipEntries Fraction.add n.rows)
  else .error (.shapeMismatch "+" m.shape n.shape)

def sub (m n : RatMatrix) : Except MatrixError RatMatrix :=
  if m.shape = n.shape then ofResult (m.rows.zipEntries Fraction.sub n.rows)
  else .error (.shapeMismatch "-" m.shape n.shape)

def mul (m n : RatMatrix) : Except MatrixError RatMatrix :=
  if m.width = n.height then ofResult (m.rows.mul n.rows)
  else .error (.shapeMismatch "*" m.shape n.shape)

def scale (m : RatMatrix) (factor : Fraction) : Except MatrixError RatMatrix :=
  ofResult (m.rows.mapEntries (·.mul factor))

def divScalar (m : RatMatrix) (divisor : Fraction) : Except MatrixError RatMatrix :=
  ofResult (m.rows.mapEntries (·.div divisor))

def neg (m : RatMatrix) : Except MatrixError RatMatrix :=
  ofResult (m.rows.mapEntries Fraction.neg)

theorem height_pos (m : RatMatrix) : 0 < m.height := by
  have := m.width_pos
  unfold height
  cases h : m.rows with
  | nil => simp [h, Grid.width] at this
  | cons row rows => simp

theorem width_transpose (m : RatMatrix) : m.rows.transpose.width = m.height := by
  have := m.width_pos
  unfold Grid.transpose height
  cases h : m.rows.width with
  | zero => omega
  | succ n => simp [List.range_succ_eq_map, Grid.width, Grid.column]

def transpose (m : RatMatrix) : RatMatrix where
  rows := m.rows.transpose
  width_pos := m.width_transpose ▸ m.height_pos
  rectangular := by
    rw [m.width_transpose]
    simp [Grid.transpose, Grid.column, height]

end RatMatrix

end MatrixScript
