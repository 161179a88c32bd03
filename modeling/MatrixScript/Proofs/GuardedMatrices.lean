import MatrixScript.Proofs.GuardedElimination
import MatrixScript.Proofs.MatrixShapes

/-!
# Guarded matrix operations

The operations on matrices with a lookup wherever one reads a row or an entry, and with a panic
where a reduction does not have the kind of result it should, or where rows that nobody looks at are
not those of a matrix.  They are the operations themselves.
-/

namespace MatrixScript

namespace Guarded

variable {ε α : Type}

/-! ## Reductions -/

def width (m : RatMatrix) : Except (Stop ε) Nat := do return (← get m.rows 0).length

def shape (m : RatMatrix) : Except (Stop ε) (Nat × Nat) := do return (m.height, ← width m)

def onMatrix (x : Except (Stop ArithmeticError) α) : Except (Stop MatrixError) α :=
  x.mapError (Stop.map .arithmetic)

def run (r : Reduction) (m : RatMatrix) (cols : Nat) : Except (Stop MatrixError) Elimination :=
  if r.requiresSquare && m.height != cols then .error (.error (.notSquare m.height cols))
  else onMatrix (eliminate (r.start m) cols r.mode)

def signedDiagonal (e : Elimination) : Except (Stop ArithmeticError) Fraction := do
  let sign ← sure (if e.swaps % 2 = 0 then pure 1 else Fraction.neg 1)
  e.grid.zipIdx.foldlM (fun product (row, i) => do sure (product.mul (← get row i))) sign

def reduce (r : Reduction) (m : RatMatrix) : Except (Stop MatrixError) Reduction.Result := do
  let cols ← width m
  let e ← run r m cols
  match r with
  | .rref | .toDiagonal | .toTriangle => .matrix <$> sure (RatMatrix.ofRows e.grid)
  | .inverse =>
    if e.pivots.length < m.height then .error (.error .singular)
    else do
      let rows ← e.grid.mapM (drop cols)
      .matrix <$> sure (RatMatrix.ofRows rows)
  | .determinant =>
    if e.pivots.length < m.height then return .scalar 0
    else .scalar <$> onMatrix (signedDiagonal e)
  | .rank => return .count e.pivots.length

def reduceToMatrix (r : Reduction) (m : RatMatrix) : Except (Stop MatrixError) RatMatrix := do
  match ← reduce r m with
  | .matrix n => return n
  | .scalar _ | .count _ => .error .panic

def determinant (m : RatMatrix) : Except (Stop MatrixError) Fraction := do
  match ← reduce .determinant m with
  | .scalar x => return x
  | .matrix _ | .count _ => .error .panic

def rank (m : RatMatrix) : Except (Stop MatrixError) Nat := do
  match ← reduce .rank m with
  | .count n => return n
  | .matrix _ | .scalar _ => .error .panic

section
variable (m : RatMatrix)

theorem width_eq : width m = (.ok m.width : Except (Stop ε) Nat) := by
  rw [width, get_row m.height_pos]
  change Except.ok (m.rows.getD 0 []).length = _
  rw [Grid.length_getD m.rectangular m.height_pos]
  rfl

theorem shape_eq : shape m = (.ok m.shape : Except (Stop ε) (Nat × Nat)) := by
  rw [shape, width_eq]
  rfl

theorem exists_rectangular_start (r : Reduction) :
    ∃ w, (r.start m).Rectangular w ∧ m.width ≤ w := by
  by_cases h : r = .inverse
  · subst h
    exact ⟨_, Grid.rectangular_beside m.rectangular (Grid.rectangular_identity m.width),
      Nat.le_add_right _ _⟩
  · have hstart : r.start m = m.rows := by
      unfold Reduction.start
      split
      · exact absurd rfl h
      · rfl
    exact ⟨m.width, hstart ▸ m.rectangular, Nat.le_refl _⟩

theorem run_eq (r : Reduction) : run r m m.width = sure (r.run m) := by
  obtain ⟨w, hw, hle⟩ := exists_rectangular_start m r
  rw [run, Reduction.run, RatMatrix.isSquare]
  change (if r.requiresSquare && !(m.height == m.width) then _ else _) = _
  split
  · rfl
  · rw [onMatrix, eliminate_eq r.mode hw hle, mapError_sure]

variable {m}

theorem signedDiagonal_eq {e : Elimination} {w : Nat} (he : e.grid.Rectangular w)
    (hw : e.grid.length ≤ w) : signedDiagonal e = sure e.signedDiagonal := by
  have hfold : ∀ sign : Fraction,
      e.grid.zipIdx.foldlM (fun product (row, i) => do sure (product.mul (← get row i))) sign =
        sure (e.grid.zipIdx.foldlM (fun product (row, i) => product.mul (row.getD i 0)) sign) := by
    intro sign
    refine foldlM_sure (fun _ => True) (fun product _ x hx => ⟨?_, fun _ _ => trivial⟩) trivial
    obtain ⟨row, i⟩ := x
    have hi : i < e.grid.length := List.snd_lt_of_mem_zipIdx hx
    have hrow : row.length = w := he row (List.fst_mem_of_mem_zipIdx hx)
    dsimp only
    rw [get_eq_getD (by omega) 0]
    rfl
  unfold signedDiagonal Elimination.signedDiagonal
  split
  · exact hfold 1
  · exact sure_bind_congr fun sign _ => hfold sign

/-- The rows that an elimination of a matrix ends with. -/
theorem exists_rectangular_run {r : Reduction} {e : Elimination} (h : r.run m = .ok e) :
    e.grid.length = (r.start m).length ∧ ∃ w, e.grid.Rectangular w ∧ m.width ≤ w := by
  obtain ⟨w, hw, hle⟩ := exists_rectangular_start m r
  have hr := Elimination.reached_of_eliminate hw (Reduction.run_eq_ok h).2
  exact ⟨hr.length, w, hr.rectangular, hle⟩

theorem drop_eq {n : Nat} {xs : List α} (h : n ≤ xs.length) :
    drop n xs = (.ok (xs.drop n) : Except (Stop ε) (List α)) := if_pos h

theorem reduce_eq (r : Reduction) (m : RatMatrix) : reduce r m = sure (r.apply m) := by
  rw [reduce, width_eq]
  change (run r m m.width >>= _) = _
  rw [run_eq]
  cases r with
  | rref =>
    rw [Reduction.apply, RatMatrix.rref, map_bind]
    exact sure_bind_congr fun e _ => map_sure _ _
  | toDiagonal =>
    rw [Reduction.apply, RatMatrix.toDiagonal, map_bind]
    exact sure_bind_congr fun e _ => map_sure _ _
  | toTriangle =>
    rw [Reduction.apply, RatMatrix.toTriangle, map_bind]
    exact sure_bind_congr fun e _ => map_sure _ _
  | inverse =>
    rw [Reduction.apply, RatMatrix.inverse, map_bind]
    refine sure_bind_congr fun e he => ?_
    obtain ⟨-, w, hw, hle⟩ := exists_rectangular_run he
    dsimp only
    split
    · rfl
    · have hdrop : e.grid.mapM (drop m.width) =
          (.ok (e.grid.map (·.drop m.width)) : Except (Stop MatrixError) Grid) :=
        mapM_ok fun row hrow => drop_eq ((hw row hrow).symm ▸ hle)
      rw [hdrop]
      exact map_sure _ _
  | determinant =>
    rw [Reduction.apply, RatMatrix.determinant, map_bind]
    refine sure_bind_congr fun e he => ?_
    have hsquare := (Reduction.run_eq_ok he).1 rfl
    obtain ⟨hlength, w, hw, hle⟩ := exists_rectangular_run he
    -- the matrix is square, so the diagonal goes no further than the rows
    have hlength : e.grid.length ≤ w := by
      rw [hlength]
      exact (RatMatrix.width_eq_height hsquare).symm.le.trans hle
    dsimp only
    split
    · rfl
    · rw [onMatrix, signedDiagonal_eq hw hlength, mapError_sure]
      exact map_sure _ _
  | rank =>
    rw [Reduction.apply, RatMatrix.rank, map_bind]
    exact sure_bind_congr fun e _ => rfl

theorem reduceToMatrix_eq {r : Reduction} {result : Except MatrixError RatMatrix}
    (h : r.apply m = .matrix <$> result) : reduceToMatrix r m = sure result := by
  rw [reduceToMatrix, reduce_eq, h]
  cases result <;> rfl

theorem determinant_eq (m : RatMatrix) : determinant m = sure m.determinant := by
  rw [determinant, reduce_eq, Reduction.apply]
  cases m.determinant <;> rfl

theorem rank_eq (m : RatMatrix) : rank m = sure m.rank := by
  rw [rank, reduce_eq, Reduction.apply]
  cases m.rank <;> rfl

end

/-! ## Arithmetic -/

def assemble (rows : Grid) : Except (Stop ε) RatMatrix :=
  match RatMatrix.ofRows rows with
  | .ok m => .ok m
  | .error _ => .error .panic

def assembleResult (rows : Except (Stop ArithmeticError) Grid) :
    Except (Stop MatrixError) RatMatrix := do
  assemble (← onMatrix rows)

def zipEntries (op : String) (f : Fraction → Fraction → Except ArithmeticError Fraction)
    (m n : RatMatrix) : Except (Stop MatrixError) RatMatrix := do
  let left ← shape m
  let right ← shape n
  if left = right then assembleResult (sure (m.rows.zipEntries f n.rows))
  else .error (.error (.shapeMismatch op left right))

def mapEntries (f : Fraction → Except ArithmeticError Fraction) (m : RatMatrix) :
    Except (Stop MatrixError) RatMatrix :=
  assembleResult (sure (m.rows.mapEntries f))

def dot (row : List Fraction) (g : Grid) (j : Nat) : Except (Stop ArithmeticError) Fraction :=
  row.zipIdx.foldlM (fun sum (x, k) => do sure (sum.add (← sure (x.mul (← entry g k j))))) 0

def mul (m n : RatMatrix) : Except (Stop MatrixError) RatMatrix := do
  if (← width m) = n.height then
    let cols ← width n
    assembleResult (m.rows.mapM fun row => (List.range cols).mapM fun j => dot row n.rows j)
  else
    .error (.error (.shapeMismatch "*" (← shape m) (← shape n)))

def columns (g : Grid) (cols : Nat) : Except (Stop ε) Grid :=
  (List.range cols).mapM fun j => g.mapM (get · j)

def transpose (m : RatMatrix) : Except (Stop ε) RatMatrix := do
  assemble (← columns m.rows (← width m))

section
variable {m n : RatMatrix}

theorem refuses_of_ofRows {g : Grid} {e : MatrixError} (h : RatMatrix.ofRows g = .error e) :
    e.Refuses := by
  unfold RatMatrix.ofRows at h
  split at h
  · split at h
    · cases h
    · cases h
      trivial
  · cases h
    trivial

theorem assembleResult_eq {rows : Except ArithmeticError Grid}
    (h : Accepted (RatMatrix.ofResult rows)) :
    assembleResult (sure rows) = sure (RatMatrix.ofResult rows) := by
  rw [assembleResult, onMatrix, mapError_sure]
  refine sure_bind_congr fun g hg => ?_
  obtain rfl := mapError_eq_ok_iff.mp hg
  have h : Accepted (RatMatrix.ofRows g) := h
  rw [assemble]
  cases hrows : RatMatrix.ofRows g with
  | ok m => rfl
  | error e => exact absurd (refuses_of_ofRows hrows) (h e hrows)

theorem zipEntries_eq (op : String) (f : Fraction → Fraction → Except ArithmeticError Fraction) :
    zipEntries op f m n = sure (if m.shape = n.shape then
      RatMatrix.ofResult (m.rows.zipEntries f n.rows)
      else .error (.shapeMismatch op m.shape n.shape)) := by
  rw [zipEntries, shape_eq, shape_eq]
  change (if m.shape = n.shape then _ else _) = _
  split
  · next h => exact assembleResult_eq (RatMatrix.accepted_zipEntries h f)
  · rfl

theorem mapEntries_eq (f : Fraction → Except ArithmeticError Fraction) (m : RatMatrix) :
    mapEntries f m = sure (RatMatrix.ofResult (m.rows.mapEntries f)) :=
  assembleResult_eq (RatMatrix.accepted_mapEntries m f)

theorem dot_eq {row : List Fraction} {g : Grid} {w j : Nat} (hg : g.Rectangular w)
    (hrow : row.length = g.length) (hj : j < w) :
    dot row g j = sure (Grid.dot row (g.column j)) := by
  have hzip : row.zip (g.column j) = row.zipIdx.map fun (x, k) => (x, g.entry k j) := by
    refine List.ext_getElem (by simp [Grid.column, hrow]) fun k hk _ => ?_
    have hk : k < g.length := by simpa [Grid.column, hrow] using hk
    simp [Grid.column, Grid.entry, hk]
  rw [dot, Grid.dot, hzip, List.foldlM_map]
  refine foldlM_sure (fun _ => True) (fun sum _ x hx => ⟨?_, fun _ _ => trivial⟩) trivial
  have hk : x.2 < g.length := hrow ▸ List.snd_lt_of_mem_zipIdx hx
  obtain ⟨x, k⟩ := x
  dsimp only
  rw [entry_eq hg hk hj]
  exact sure_bind_congr fun _ _ => rfl

theorem mul_eq (m n : RatMatrix) : mul m n = sure (m.mul n) := by
  rw [mul, RatMatrix.mul, width_eq]
  change (if m.width = n.height then _ else _) = _
  split
  · next h =>
    have hrows : (m.rows.mapM fun row => (List.range n.width).mapM fun j => dot row n.rows j) =
        sure (m.rows.mul n.rows) := by
      refine mapM_sure fun row hrow => mapM_sure fun j hj => ?_
      have hlength : row.length = n.rows.length := (m.rectangular row hrow).trans h
      exact dot_eq n.rectangular hlength (List.mem_range.mp hj)
    have haccepted : Accepted (RatMatrix.ofResult (m.rows.mul n.rows)) := by
      have hmul : Accepted (m.mul n) := RatMatrix.accepted_mul
      rwa [RatMatrix.mul, if_pos h] at hmul
    rw [width_eq]
    change assembleResult (m.rows.mapM _) = _
    rw [hrows, assembleResult_eq haccepted]
  · rw [shape_eq, shape_eq]
    rfl

theorem assemble_rows (m : RatMatrix) :
    assemble m.rows = (.ok m : Except (Stop ε) RatMatrix) := by
  obtain ⟨n, hn⟩ := RatMatrix.ofRows_of_rectangular m.rectangular m.height_pos m.width_pos
  have hrows := RatMatrix.rows_of_ofRows hn
  rw [assemble, hn]
  cases m
  cases n
  cases hrows
  rfl

theorem columns_eq {g : Grid} {w : Nat} (hg : g.Rectangular w) :
    columns g w = (.ok ((List.range w).map g.column) : Except (Stop ε) Grid) := by
  refine mapM_ok fun j hj => mapM_ok fun row hrow => get_eq_getD ?_ 0
  rw [hg row hrow]
  exact List.mem_range.mp hj

theorem transpose_eq (m : RatMatrix) :
    transpose m = (.ok m.transpose : Except (Stop ε) RatMatrix) := by
  rw [transpose, width_eq]
  change (columns m.rows m.rows.width >>= assemble) = _
  rw [columns_eq m.rectangular]
  exact assemble_rows m.transpose

end

end Guarded

end MatrixScript
