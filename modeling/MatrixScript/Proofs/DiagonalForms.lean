import Mathlib.LinearAlgebra.Matrix.Block
import MatrixScript.Proofs.FinishedColumns
import MatrixScript.Proofs.PivotColumns
import MatrixScript.Proofs.ReducedForms

/-!
# Triangular and diagonal forms

With pivots on the diagonal only, a column has its pivot there or is zero from there on.  So both
forms are triangular, and what the diagonal form keeps off the diagonal is above it, in the columns
without a pivot.
-/

namespace MatrixScript

open Grid

/-! ## Pivots on the diagonal -/

namespace Elimination

variable {mode : Mode} {start : Grid} {w c cols : Nat} {e : Elimination}

theorem isPivot_of_diagonal_ne_zero (hg : start.Rectangular w) (hd : mode.diagonal = true)
    (h : eliminate start cols mode = .ok e) (hc : c < cols) (hne : e.grid.value c c ≠ 0) :
    IsPivot mode e.grid c c := by
  obtain ⟨s, s', hs, -, hstep, hcol⟩ := exists_step_of_eliminate hg h hc
  have hreached := reached_of_eliminate hg hs
  have hlt := lt_length_of_value_ne_zero hne
  rw [(reached_of_eliminate hg h).length, ← hreached.length] at hlt
  have hrow : s.row = c := (hreached.triangular hd).row_eq.trans (Nat.min_eq_left hlt.le)
  rw [hcol] at hne
  cases hstep with
  | exhausted h => omega
  | skipped _ hz => exact absurd (hz c hrow.le) hne
  | pivoted k g hk hl hp hg =>
    have hpivot := (isPivot_of_pivoted hk hl hp hg).congr hcol
    rwa [hrow] at hpivot

section
variable (h : Reached mode start w start.length e) (hd : mode.diagonal = true)
include h hd

theorem Reached.isUpperTriangular :
    (e.grid.toMatrix start.length start.length).IsUpperTriangular :=
  fun i j hij => (h.triangular hd).below i j hij j.isLt

theorem Reached.prod_diagonal (hno : mode.normalize = false) :
    ∏ i : Fin start.length, e.grid.value i i =
      (-1) ^ e.swaps * (start.toMatrix start.length start.length).det := by
  obtain ⟨P, -, hdet, hP⟩ := h.transformed
  rw [← hdet hno, ← Matrix.det_mul, ← toMatrix_eq_mul hP,
    Matrix.det_of_isUpperTriangular (h.isUpperTriangular hd)]
  rfl

end

end Elimination

/-! ## The forms -/

namespace RatMatrix

/-- `t` has the shape and the row space of `m`, and zeros below the diagonal, so that the product of
the diagonal is the determinant up to sign.  Positions outside a grid hold zero, so the zeros need no
bounds. -/
structure TriangularForm (m t : RatMatrix) : Prop where
  shape_eq : t.shape = m.shape
  rowSpace_eq :
    rowSpace (t.rows.toMatrix m.height m.width) = rowSpace (m.rows.toMatrix m.height m.width)
  below : ∀ i j, j < i → t.rows.value i j = 0
  product : m.isSquare = true →
    ∏ i : Fin m.height, t.rows.value i i = (m.rows.toMatrix m.height m.height).det ∨
    ∏ i : Fin m.height, t.rows.value i i = -(m.rows.toMatrix m.height m.height).det

/-- A triangular form with nothing above the diagonal either, but for the columns that have no pivot
on it. -/
structure DiagonalForm (m d : RatMatrix) : Prop extends TriangularForm m d where
  offDiagonal : ∀ i j, i ≠ j → d.rows.value i j ≠ 0 →
    i < j ∧ (m.height ≤ j ∨ d.rows.value j j = 0)
  nonsingular : m.isSquare = true → (m.rows.toMatrix m.height m.height).det ≠ 0 →
    (∀ i : Fin m.height, d.rows.value i i ≠ 0) ∧
    d.rows.toMatrix m.height m.height = Matrix.diagonal fun i : Fin m.height => d.rows.value i i

variable {r : Reduction} {m t d : RatMatrix}

theorem triangularForm_of_apply (hr : r.IsForm) (hd : r.mode.diagonal = true)
    (hno : r.mode.normalize = false) (h : r.apply m = .ok (.matrix t)) : TriangularForm m t := by
  obtain ⟨e, -, he, ht⟩ := hr.exists_eliminate h
  refine ⟨hr.shape_eq h, ?_, fun i j hij => ?_, fun hs => ?_⟩
  · rw [ht]
    exact he.rowSpace_eq
  · rw [ht]
    rcases Nat.lt_or_ge j m.width with hj | hj
    · exact (he.triangular hd).below i j hij hj
    · exact value_of_width_le he.rectangular hj i
  · rw [width_eq_height hs] at he
    have hprod := he.prod_diagonal hd hno
    rw [ht]
    rcases neg_one_pow_eq_or ℚ e.swaps with hsign | hsign
    · rw [hsign, one_mul] at hprod
      exact Or.inl hprod
    · rw [hsign, neg_one_mul] at hprod
      exact Or.inr hprod

theorem triangularForm_of_toTriangle (h : m.toTriangle = .ok t) : TriangularForm m t := by
  have happly : Reduction.toTriangle.apply m = .ok (.matrix t) := by rw [Reduction.apply, h]; rfl
  exact triangularForm_of_apply (Or.inr (Or.inr rfl)) rfl rfl happly

section
variable (h : m.toDiagonal = .ok d)
include h

theorem apply_toDiagonal : Reduction.toDiagonal.apply m = .ok (.matrix d) := by
  rw [Reduction.apply, h]
  rfl

theorem triangularForm_of_toDiagonal : TriangularForm m d :=
  triangularForm_of_apply (Or.inr (Or.inl rfl)) rfl rfl (apply_toDiagonal h)

/-- A pivot on the diagonal leaves nothing else in its column. -/
theorem value_eq_zero_of_toDiagonal {i j : Nat} (hij : i ≠ j) (hjj : d.rows.value j j ≠ 0) :
    d.rows.value i j = 0 := by
  have hform : Reduction.toDiagonal.IsForm := Or.inr (Or.inl rfl)
  obtain ⟨e, he, hreached, hrows⟩ := hform.exists_eliminate (apply_toDiagonal h)
  rw [hrows] at hjj ⊢
  have hj : j < m.width := by
    by_contra hle
    exact hjj (value_of_width_le hreached.rectangular (Nat.not_lt.mp hle) j)
  have hpivot := Elimination.isPivot_of_diagonal_ne_zero m.rectangular rfl he hj hjj
  exact hpivot.others rfl i hij

theorem diagonalForm_of_toDiagonal : DiagonalForm m d := by
  have htriangular := triangularForm_of_toDiagonal h
  refine ⟨htriangular, fun i j hij hne => ⟨?_, ?_⟩, fun hs hdet => ?_⟩
  · by_contra hle
    exact hne (htriangular.below i j (by omega))
  · by_contra hnone
    exact hne (value_eq_zero_of_toDiagonal h hij (not_or.mp hnone).2)
  · have hprod : ∏ i : Fin m.height, d.rows.value i i ≠ 0 := by
      rcases htriangular.product hs with hp | hp
      · rwa [hp]
      · rwa [hp, neg_ne_zero]
    have hdiag : ∀ i : Fin m.height, d.rows.value i i ≠ 0 := fun i =>
      Finset.prod_ne_zero_iff.mp hprod i (Finset.mem_univ i)
    refine ⟨hdiag, ?_⟩
    ext i j
    rw [toMatrix_apply, Matrix.diagonal_apply]
    split
    · rename_i hij; rw [hij]
    · rename_i hij
      exact value_eq_zero_of_toDiagonal h (fun hv => hij (Fin.ext hv)) (hdiag j)

end

theorem diagonal_forms :
    (∀ m t : RatMatrix, m.toTriangle = .ok t → TriangularForm m t) ∧
    ∀ m d : RatMatrix, m.toDiagonal = .ok d → DiagonalForm m d :=
  ⟨fun _ _ h => triangularForm_of_toTriangle h, fun _ _ h => diagonalForm_of_toDiagonal h⟩

/-- Three rows of rank two, whose second column has no pivot on the diagonal. -/
theorem diagonal_forms_of_gap :
    let m : RatMatrix := ⟨[[0, 0, 1], [1, .ofInt64 3, 0], [1, .ofInt64 3, .ofInt64 4]],
      by decide, by decide⟩
    let t : RatMatrix := ⟨[[1, .ofInt64 3, 0], [0, 0, 1], [0, 0, .ofInt64 4]], by decide, by decide⟩
    let d : RatMatrix := ⟨[[1, .ofInt64 3, 0], [0, 0, 0], [0, 0, .ofInt64 4]], by decide, by decide⟩
    m.toTriangle = .ok t ∧ TriangularForm m t ∧ m.toDiagonal = .ok d ∧ DiagonalForm m d := by
  intro m t d
  have ht : m.toTriangle = .ok t := by decide +kernel
  have hd : m.toDiagonal = .ok d := by decide +kernel
  exact ⟨ht, diagonal_forms.1 m t ht, hd, diagonal_forms.2 m d hd⟩

end RatMatrix

end MatrixScript
