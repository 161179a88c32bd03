import Mathlib.LinearAlgebra.Matrix.Adjugate
import Mathlib.LinearAlgebra.Matrix.NonsingularInverse
import Mathlib.LinearAlgebra.Matrix.Swap
import MatrixScript.Proofs.PivotStep

/-!
# The elimination as a product of matrices

Each step multiplies the grid from the left by an invertible matrix.  The columns are indexed by all
natural numbers, so that the same factor is known to act on every block of columns.
-/

namespace MatrixScript

namespace Grid

def valueMatrix (g : Grid) (m : Nat) : Matrix (Fin m) Nat ℚ := .of fun i j => g.value i j

def toMatrix (g : Grid) (m n : Nat) : Matrix (Fin m) (Fin n) ℚ := .of fun i j => g.value i j

@[simp] theorem valueMatrix_apply (g : Grid) (m : Nat) (i : Fin m) (j : Nat) :
    g.valueMatrix m i j = g.value i j := rfl

@[simp] theorem toMatrix_apply (g : Grid) (m n : Nat) (i : Fin m) (j : Fin n) :
    g.toMatrix m n i j = g.value i j := rfl

theorem toMatrix_eq_mul {g h : Grid} {m : Nat} {P : Matrix (Fin m) (Fin m) ℚ}
    (hP : h.valueMatrix m = P * g.valueMatrix m) (n : Nat) :
    h.toMatrix m n = P * g.toMatrix m n := by
  ext i j
  exact congrFun (congrFun hP i) j

theorem valueMatrix_swap {g : Grid} {m : Nat} (hm : m = g.length) (r k : Fin m) :
    (g.swap r k).valueMatrix m = Matrix.swap ℚ r k * g.valueMatrix m := by
  ext i j
  rw [Matrix.swap, PEquiv.toMatrix_toPEquiv_mul, Matrix.submatrix_apply, valueMatrix_apply,
    valueMatrix_apply, value_swap (hm ▸ r.isLt) (hm ▸ k.isLt)]
  exact congrArg (g.value · j) (Fin.val_injective.swap_apply r k i)

end Grid

/-! ## The matrix of a pivot -/

section
variable {m : Type} [Fintype m] [DecidableEq m]

theorem updateCol_one_mul_apply {n : Type} (r : m) (v : m → ℚ) (A : Matrix m n ℚ) (i : m) (j : n) :
    (Matrix.updateCol 1 r v * A) i j = (if i = r then 0 else A i j) + v i * A r j := by
  have hx : ∀ x, Matrix.updateCol 1 r v i x * A x j =
      (if x = i then (if i = r then 0 else A i j) else 0) + (if x = r then v i * A r j else 0) := by
    intro x
    rw [Matrix.updateCol_apply, Matrix.one_apply]
    by_cases hr : x = r
    · subst hr
      by_cases hi : x = i
      · simp [hi]
      · simp [hi]
    · by_cases hi : x = i
      · subst hi; simp [hr]
      · simp [hr, hi, Ne.symm hi]
  rw [Matrix.mul_apply, Finset.sum_congr rfl fun x _ => hx x, Finset.sum_add_distrib]
  simp

theorem det_updateCol_one (r : m) (v : m → ℚ) : (Matrix.updateCol 1 r v).det = v r := by
  rw [← Matrix.cramer_apply, Matrix.cramer_one]; rfl

theorem det_swap_eq (i j : m) : (Matrix.swap ℚ i j).det = if i = j then 1 else -1 := by
  rw [Matrix.swap, Matrix.det_permutation, Equiv.Perm.sign_swap']
  split <;> simp

theorem isUnit_swap (i j : m) : IsUnit (Matrix.swap ℚ i j) := by
  rw [Matrix.isUnit_iff_isUnit_det, det_swap_eq, isUnit_iff_ne_zero]
  split <;> simp

end

namespace Elimination

open Grid

variable {mode : Mode} {start : Grid} {w c : Nat} {s s' : Elimination}

/-- The identity with the weights of the pivot row in its column `r`. -/
def pivotMatrix (mode : Mode) (g : Grid) {m : Nat} (r : Fin m) (c : Nat) :
    Matrix (Fin m) (Fin m) ℚ :=
  Matrix.updateCol 1 r fun i => weight mode g r c i

section
variable {g g' : Grid} {m : Nat} {r : Fin m}

theorem Pivoted.valueMatrix_eq (h : Pivoted mode w g r c g') :
    g'.valueMatrix m = pivotMatrix mode g r c * g.valueMatrix m := by
  ext i j
  rw [pivotMatrix, updateCol_one_mul_apply, valueMatrix_apply, h.value]
  simp [Fin.ext_iff]

theorem det_pivotMatrix (mode : Mode) (g : Grid) (r : Fin m) (c : Nat) :
    (pivotMatrix mode g r c).det = if mode.normalize then (g.value r c)⁻¹ else 1 := by
  rw [pivotMatrix, det_updateCol_one, weight, if_pos rfl]

theorem isUnit_pivotMatrix (hp : g.value r c ≠ 0) : IsUnit (pivotMatrix mode g r c) := by
  rw [Matrix.isUnit_iff_isUnit_det, det_pivotMatrix, isUnit_iff_ne_zero]
  split
  · exact inv_ne_zero hp
  · exact one_ne_zero

end

def Transformed (mode : Mode) (start : Grid) (s : Elimination) : Prop :=
  ∃ P : Matrix (Fin start.length) (Fin start.length) ℚ, IsUnit P ∧
    (mode.normalize = false → P.det = (-1) ^ s.swaps) ∧
    s.grid.valueMatrix start.length = P * start.valueMatrix start.length

theorem transformed_start (mode : Mode) (start : Grid) : Transformed mode start ⟨start, 0, [], 0⟩ :=
  ⟨1, isUnit_one, fun _ => by simp, (Matrix.one_mul _).symm⟩

theorem Step.transformed (h : Step mode w c s s') (hlen : s.grid.length = start.length)
    (hs : Transformed mode start s) : Transformed mode start s' := by
  obtain ⟨P, hu, hd, hP⟩ := hs
  cases h with
  | exhausted _ => exact ⟨P, hu, hd, hP⟩
  | skipped _ _ => exact ⟨P, hu, hd, hP⟩
  | pivoted k g hk hl hp hg =>
    have hk' : k < start.length := hlen ▸ hl
    have hr : s.row < start.length := lt_of_le_of_lt hk hk'
    set r : Fin start.length := ⟨s.row, hr⟩
    have hp' : (s.grid.swap s.row k).value r c ≠ 0 := value_swap_ne_zero hk hl hp
    have hval : g.valueMatrix start.length = pivotMatrix mode (s.grid.swap s.row k) r c *
        (s.grid.swap s.row k).valueMatrix start.length := hg.valueMatrix_eq (r := r)
    -- the new factor first swaps the rows and then combines them
    refine ⟨pivotMatrix mode (s.grid.swap s.row k) r c * Matrix.swap ℚ r ⟨k, hk'⟩ * P,
      ((isUnit_pivotMatrix hp').mul (isUnit_swap r ⟨k, hk'⟩)).mul hu, fun hn => ?_, ?_⟩
    · rw [Matrix.det_mul, Matrix.det_mul, det_pivotMatrix, det_swap_eq, hd hn, hn]
      by_cases hks : k = s.row
      · simp [r, hks]
      · simp [r, hks, Ne.symm hks, pow_succ]
    · have hswap := valueMatrix_swap hlen.symm r ⟨k, hk'⟩
      rw [hval, hswap, hP, Matrix.mul_assoc, Matrix.mul_assoc]

end Elimination

end MatrixScript
