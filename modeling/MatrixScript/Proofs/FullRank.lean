import Mathlib.Data.List.Sort
import MatrixScript.Proofs.EliminationSound
import MatrixScript.Proofs.MatrixRows
import MatrixScript.Reduction

/-!
# Eliminations of a square block

With as many pivots as rows, the pivots are the diagonal of the block.  With fewer pivots the last
row of the block is zero, and so is the determinant.
-/

namespace MatrixScript

open Grid

/-! ## Running a reduction -/

theorem mapError_eq_ok_iff {ε ε' α : Type} {f : ε → ε'} {x : Except ε α} {a : α} :
    x.mapError f = .ok a ↔ x = .ok a := by
  cases x <;> simp [Except.mapError]

theorem mapError_eq_error_iff {ε ε' α : Type} {f : ε → ε'} {x : Except ε α} {e' : ε'} :
    x.mapError f = .error e' ↔ ∃ e, x = .error e ∧ f e = e' := by
  cases x <;> simp [Except.mapError]

namespace Reduction

variable {r : Reduction} {m : RatMatrix}

theorem run_eq_ok {e : Elimination} (h : r.run m = .ok e) :
    (r.requiresSquare = true → m.isSquare = true) ∧
      eliminate (r.start m) m.width r.mode = .ok e := by
  rw [run] at h
  split at h
  · cases h
  · rename_i hs
    refine ⟨fun hr => ?_, mapError_eq_ok_iff.mp h⟩
    simpa [hr] using hs

theorem run_of_not_square (hr : r.requiresSquare = true) (hs : m.height ≠ m.width) :
    r.run m = .error (.notSquare m.height m.width) := by
  have hs : m.isSquare = false := beq_eq_false_iff_ne.mpr hs
  rw [run, hr, hs]
  rfl

theorem run_eq_error {x : MatrixError} (h : r.run m = .error x) :
    (x = .notSquare m.height m.width ∧ r.requiresSquare = true ∧ m.height ≠ m.width) ∨
      x = .arithmetic .overflow := by
  by_cases hs : r.requiresSquare = true ∧ m.height ≠ m.width
  · rw [run_of_not_square hs.1 hs.2] at h
    cases h
    exact Or.inl ⟨rfl, hs⟩
  · rw [run] at h
    split at h
    · rename_i hs'
      exact absurd (by simpa [RatMatrix.isSquare] using hs') hs
    · obtain ⟨y, hy, rfl⟩ := mapError_eq_error_iff.mp h
      rw [Elimination.eliminate_error hy]
      exact Or.inr rfl

theorem run_error {x : MatrixError} (hs : m.isSquare = true) (h : r.run m = .error x) :
    x = .arithmetic .overflow := by
  rcases run_eq_error h with ⟨-, -, hne⟩ | h
  · exact absurd (RatMatrix.width_eq_height hs).symm hne
  · exact h

end Reduction

/-! ## The positions of the pivots -/

theorem eq_range_of_increasing {l : List Nat} (h : l.Pairwise (· < ·)) (hl : ∀ x ∈ l, x < l.length) :
    l = List.range l.length := by
  have hsub : l ⊆ List.range l.length := fun x hx => List.mem_range.mpr (hl x hx)
  have hperm := (List.subperm_of_subset (h.imp Nat.ne_of_lt) hsub).perm_of_length_le (by simp)
  exact hperm.eq_of_pairwise' h List.pairwise_lt_range

namespace Elimination

section
variable {mode : Mode} {start : Grid} {w : Nat} {e : Elimination}

theorem Reached.length_pivots_le {c : Nat} (h : Reached mode start w c e)
    (hd : mode.diagonal = false) : e.pivots.length ≤ start.length := by
  have := h.row_le
  rwa [h.length, ← (h.echelon hd).length_pivots] at this

variable (h : Reached mode start w start.length e) (hd : mode.diagonal = false)
include h hd

theorem Reached.isPivot_diagonal (hn : e.pivots.length = start.length) {i : Nat}
    (hi : i < start.length) : IsPivot mode e.grid i i := by
  have hcols : e.pivots.map Prod.snd = List.range start.length := by
    have hlen : (e.pivots.map Prod.snd).length = start.length := by rw [List.length_map, hn]
    rw [← hlen]
    refine eq_range_of_increasing (List.pairwise_map.mpr (h.marked.increasing.imp fun h => h.2)) ?_
    intro c hc
    obtain ⟨p, hp, rfl⟩ := List.mem_map.mp hc
    rw [hlen]; exact (h.marked.before p hp).2
  have hi' : i < e.pivots.length := hn ▸ hi
  have hrow : e.pivots[i].1 = i := (h.echelon hd).row_eq i _ (List.getElem?_eq_getElem hi')
  have hcol : e.pivots[i].2 = i := by
    have hget : (e.pivots.map Prod.snd)[i]? = some i := by
      rw [hcols, List.getElem?_range hi]
    rwa [List.getElem?_map, List.getElem?_eq_getElem hi', Option.map_some, Option.some_inj] at hget
  have hp := h.marked.isPivot e.pivots[i] (List.getElem_mem hi')
  rwa [hrow, hcol] at hp

theorem Reached.toMatrix_eq_diagonal (ha : mode.above = true)
    (hn : e.pivots.length = start.length) :
    e.grid.toMatrix start.length start.length =
      Matrix.diagonal fun i : Fin start.length => e.grid.value i i := by
  ext i j
  rw [toMatrix_apply, Matrix.diagonal_apply]
  split
  · rename_i hij; rw [hij]
  · rename_i hij
    exact (h.isPivot_diagonal hd hn j.isLt).others ha i (fun hv => hij (Fin.ext hv))

theorem Reached.det_eq_zero (hlt : e.pivots.length < start.length) :
    (start.toMatrix start.length start.length).det = 0 := by
  obtain ⟨P, hu, -, hP⟩ := h.transformed
  have hlast : (e.grid.toMatrix start.length start.length).det = 0 := by
    apply Matrix.det_eq_zero_of_row_eq_zero ⟨e.pivots.length, hlt⟩
    intro j
    exact h.settled j j.isLt _ (h.echelon hd).length_pivots.ge
  rw [toMatrix_eq_mul hP, Matrix.det_mul] at hlast
  have hne : P.det ≠ 0 := ((Matrix.isUnit_iff_isUnit_det P).mp hu).ne_zero
  exact (mul_eq_zero.mp hlast).resolve_left hne

theorem Reached.det_eq (hno : mode.normalize = false) (ha : mode.above = true)
    (hn : e.pivots.length = start.length) :
    (start.toMatrix start.length start.length).det =
      (-1) ^ e.swaps * ∏ i : Fin start.length, e.grid.value i i := by
  obtain ⟨P, -, hdet, hP⟩ := h.transformed
  have hprod := congrArg Matrix.det (toMatrix_eq_mul hP start.length)
  rw [h.toMatrix_eq_diagonal hd ha hn, Matrix.det_diagonal, Matrix.det_mul, hdet hno] at hprod
  rw [hprod, ← mul_assoc, ← mul_pow]
  simp

theorem Reached.toMatrix_eq_one (hno : mode.normalize = true) (ha : mode.above = true)
    (hn : e.pivots.length = start.length) : e.grid.toMatrix start.length start.length = 1 := by
  rw [h.toMatrix_eq_diagonal hd ha hn, ← Matrix.diagonal_one]
  congr 1
  funext i
  exact (h.isPivot_diagonal hd hn i.isLt).one hno

end

end Elimination

end MatrixScript
