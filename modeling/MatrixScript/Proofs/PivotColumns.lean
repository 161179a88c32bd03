import Mathlib.Data.Fintype.Fin
import Mathlib.LinearAlgebra.Matrix.Echelon.Pivot
import MatrixScript.Proofs.FullRank
import MatrixScript.Proofs.RowSpaces

/-!
# The pivots of a finished elimination

When pivots may come from every column, the recorded pivots are the leading entries of the grid that
is left, and the rows without a pivot are zero.  So their number is the rank of the grid.
-/

namespace MatrixScript

open Grid

namespace Elimination

def pivotColumn (e : Elimination) (w i : Nat) : WithTop (Fin w) :=
  match e.pivots[i]? with
  | some p => if h : p.2 < w then (⟨p.2, h⟩ : Fin w) else ⊤
  | none => ⊤

section
variable {mode : Mode} {start : Grid} {w : Nat} {e : Elimination} (h : Reached mode start w w e)
include h

theorem Reached.rowSpace_eq :
    rowSpace (e.grid.toMatrix start.length w) = rowSpace (start.toMatrix start.length w) := by
  obtain ⟨P, hu, -, hP⟩ := h.transformed
  rw [toMatrix_eq_mul hP, rowSpace_mul hu]

theorem Reached.rank_eq :
    (e.grid.toMatrix start.length w).rank = (start.toMatrix start.length w).rank := by
  obtain ⟨P, hu, -, hP⟩ := h.transformed
  rw [toMatrix_eq_mul hP, Matrix.rank_mul_eq_right_of_isUnit_det _ _
    ((Matrix.isUnit_iff_isUnit_det P).mp hu)]

theorem Reached.pivotColumn_eq {i : Nat} {p : Nat × Nat} (hp : e.pivots[i]? = some p) :
    e.pivotColumn w i = (⟨p.2, (h.inside p (List.mem_of_getElem? hp)).2.1⟩ : Fin w) := by
  rw [pivotColumn, hp]
  exact dif_pos _

theorem Reached.pivotColumn_eq_top_iff {i : Nat} :
    e.pivotColumn w i = ⊤ ↔ e.pivots.length ≤ i := by
  cases hp : e.pivots[i]? with
  | none =>
    rw [pivotColumn, hp]
    exact iff_of_true rfl (List.getElem?_eq_none_iff.mp hp)
  | some p =>
    rw [h.pivotColumn_eq hp]
    exact iff_of_false WithTop.coe_ne_top (Nat.not_le.mpr (List.getElem?_eq_some_iff.mp hp).1)

theorem Reached.exists_of_pivotColumn_eq {i : Nat} {c : Fin w} (hc : e.pivotColumn w i = c) :
    ∃ p, e.pivots[i]? = some p ∧ p.2 = c := by
  cases hp : e.pivots[i]? with
  | none => rw [pivotColumn, hp] at hc; cases hc
  | some p =>
    rw [h.pivotColumn_eq hp] at hc
    exact ⟨p, rfl, congrArg Fin.val (WithTop.coe_injective hc)⟩

variable (hd : mode.diagonal = false)
include hd

theorem Reached.value_eq_zero {i j : Nat} (hi : e.pivots.length ≤ i) (hj : j < w) :
    e.grid.value i j = 0 :=
  h.settled j hj i ((h.echelon hd).length_pivots ▸ hi)

theorem Reached.isRowEchelon : (e.grid.toMatrix start.length w).IsRowEchelon := by
  intro i k hik j hbefore
  rcases Nat.lt_or_ge k e.pivots.length with hk | hk
  · have hi : (i : Nat) < e.pivots.length := Nat.lt_trans hik hk
    have he := h.echelon hd
    have hrow_i := he.row_eq i _ (List.getElem?_eq_getElem hi)
    have hrow_k := he.row_eq k _ (List.getElem?_eq_getElem hk)
    have hcols := (List.pairwise_iff_getElem.mp h.marked.increasing i k hi hk hik).2
    have hpivot := (h.marked.isPivot _ (List.getElem_mem hi)).ne_zero
    have hinside := (h.inside _ (List.getElem_mem hi)).2.1
    rw [hrow_i] at hpivot
    -- row `i` is zero before column `j`, so its pivot is not there, and that of row `k` is
    -- further right
    have hji : (j : Nat) ≤ e.pivots[i].2 := by
      by_contra hlt
      exact hpivot (hbefore ⟨e.pivots[i].2, hinside⟩ (Nat.not_le.mp hlt))
    have hleft := he.left _ (List.getElem_mem hk) j (Nat.lt_of_le_of_lt hji hcols)
    rwa [hrow_k] at hleft
  · exact h.value_eq_zero hd hk j.isLt

theorem Reached.isPivotedBy : (e.grid.toMatrix start.length w).IsPivotedBy
    (fun i => e.pivotColumn w i) := by
  refine ⟨h.isRowEchelon hd, fun i => ⟨fun j hj => ?_, fun c hc => ?_⟩⟩
  · cases hp : e.pivots[(i : Nat)]? with
    | none => exact h.value_eq_zero hd (List.getElem?_eq_none_iff.mp hp) j.isLt
    | some p =>
      rw [h.pivotColumn_eq hp, WithTop.coe_lt_coe] at hj
      have hleft := (h.echelon hd).left p (List.mem_of_getElem? hp) j hj
      rwa [(h.echelon hd).row_eq i p hp] at hleft
  · obtain ⟨p, hp, hpc⟩ := h.exists_of_pivotColumn_eq hc
    have hne := (h.marked.isPivot p (List.mem_of_getElem? hp)).ne_zero
    rwa [(h.echelon hd).row_eq i p hp, hpc] at hne

theorem Reached.length_pivots_eq_rank :
    e.pivots.length = (start.toMatrix start.length w).rank := by
  have hset : ∀ i : Fin start.length, e.pivotColumn w i ≠ ⊤ ↔ (i : Nat) < e.pivots.length :=
    fun i => h.pivotColumn_eq_top_iff.not.trans Nat.not_le
  rw [← h.rank_eq, (h.isPivotedBy hd).rank_eq]
  simp only [hset, Fin.card_filter_val_lt]
  exact (Nat.min_eq_right (h.length_pivots_le hd)).symm

theorem Reached.isPivot_of_isLeadingEntry {i : Fin start.length} {j : Fin w}
    (hij : (e.grid.toMatrix start.length w).IsLeadingEntry i j) : IsPivot mode e.grid i j := by
  have hpiv := h.isPivotedBy hd
  have hne : e.pivotColumn w i ≠ ⊤ := fun htop => hij.row_ne_zero (hpiv.eq_top_iff.mp htop)
  obtain ⟨c, hc⟩ := WithTop.ne_top_iff_exists.mp hne
  have hcj : c = j := (hpiv.isLeadingEntry hc.symm).unique hij
  obtain ⟨p, hp, hpc⟩ := h.exists_of_pivotColumn_eq hc.symm
  have hpivot := h.marked.isPivot p (List.mem_of_getElem? hp)
  rwa [(h.echelon hd).row_eq i p hp, hpc, hcj] at hpivot

theorem Reached.isReducedRowEchelon (hno : mode.normalize = true) (ha : mode.above = true) :
    (e.grid.toMatrix start.length w).IsReducedRowEchelon where
  isRowEchelon := h.isRowEchelon hd
  eq_one _ _ hij := (h.isPivot_of_isLeadingEntry hd hij).one hno
  eq_zero i _ _ hik hk :=
    (h.isPivot_of_isLeadingEntry hd hk).others ha i (Nat.ne_of_lt hik)

end

end Elimination

end MatrixScript
