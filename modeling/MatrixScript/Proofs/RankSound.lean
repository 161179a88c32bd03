import MatrixScript.Proofs.PivotColumns
import MatrixScript.Proofs.ProductSound

/-!
# The rank

`rank_sound`: what `RatMatrix.rank` gives is the rank over the rational numbers, which is the
dimension of the row space.
-/

namespace MatrixScript

open Grid

theorem Grid.value_transpose {g : Grid} {i j : Nat} (hi : i < g.width) :
    g.transpose.value i j = g.value j i := by
  have hlen : i < g.transpose.length := by simpa [Grid.transpose] using hi
  rw [value_eq_getElem hlen, ← rowValue_column]
  simp [Grid.transpose]

namespace RatMatrix

theorem height_transpose (m : RatMatrix) : m.transpose.height = m.width := by
  simp [height, transpose, Grid.transpose, width]

theorem toMatrix_transpose (m : RatMatrix) :
    m.transpose.rows.toMatrix m.width m.height = (m.rows.toMatrix m.height m.width).transpose := by
  ext i j
  exact value_transpose i.isLt

theorem eq_rank_of_rank {m : RatMatrix} {k : Nat} (h : m.rank = .ok k) :
    k = (m.rows.toMatrix m.height m.width).rank := by
  rw [rank, bind_eq_ok_iff] at h
  obtain ⟨e, he, h⟩ := h
  obtain ⟨-, he⟩ := Reduction.run_eq_ok he
  have hk : e.pivots.length = k := Except.ok.inj h
  rw [← hk]
  exact (Elimination.reached_of_eliminate m.rectangular he).length_pivots_eq_rank rfl

theorem rank_sound :
    (∀ (m : RatMatrix) (k : Nat), m.rank = .ok k →
      k = (m.rows.toMatrix m.height m.width).rank ∧
      k = Module.finrank ℚ (rowSpace (m.rows.toMatrix m.height m.width)) ∧
      k ≤ min m.height m.width) ∧
    ∀ (m : RatMatrix) (k l : Nat), m.rank = .ok k → m.transpose.rank = .ok l → k = l := by
  refine ⟨fun m k h => ?_, fun m k l hk hl => ?_⟩
  · have hk := eq_rank_of_rank h
    refine ⟨hk, hk.trans (Matrix.rank_eq_finrank_span_row _), ?_⟩
    rw [hk]
    exact le_min (Matrix.rank_le_height _) (Matrix.rank_le_width _)
  · have hl' := eq_rank_of_rank hl
    rw [height_transpose, show m.transpose.width = m.height from m.width_transpose,
      toMatrix_transpose, Matrix.rank_transpose] at hl'
    exact (eq_rank_of_rank hk).trans hl'.symm

/-- Two rows of which one is a multiple of the other, with a column that has no pivot. -/
theorem rank_sound_of_dependent_rows :
    let m : RatMatrix := ⟨[[0, 1, .ofInt64 2], [0, .ofInt64 2, .ofInt64 4]], by decide, by decide⟩
    m.rank = .ok 1 ∧ (1 = (m.rows.toMatrix m.height m.width).rank ∧
      1 = Module.finrank ℚ (rowSpace (m.rows.toMatrix m.height m.width)) ∧
      1 ≤ min m.height m.width) ∧
    m.transpose.rank = .ok 1 ∧ 1 = 1 := by
  intro m
  have hm : m.rank = .ok 1 := by decide +kernel
  have ht : m.transpose.rank = .ok 1 := by decide +kernel
  exact ⟨hm, rank_sound.1 m 1 hm, ht, rank_sound.2 m 1 1 hm ht⟩

end RatMatrix

end MatrixScript
