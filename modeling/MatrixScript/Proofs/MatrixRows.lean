import MatrixScript.Proofs.GridValues
import MatrixScript.RatMatrix

/-!
# Matrices and their rows

The rows of a matrix are a rectangular grid, and every rectangular grid with an entry makes a matrix.
-/

namespace MatrixScript

open Grid

theorem Grid.width_eq {g : Grid} {w : Nat} (hg : g.Rectangular w) (hpos : 0 < g.length) :
    g.width = w := by
  cases g with
  | nil => exact absurd hpos (Nat.lt_irrefl 0)
  | cons row rows => exact hg row (List.mem_cons_self ..)

theorem Grid.ragged?_eq_none {g : Grid} {w : Nat} (hg : g.Rectangular w) : g.ragged? = none := by
  rw [ragged?, List.findIdx?_eq_none_iff]
  intro row hrow
  have hw := width_eq hg (List.length_pos_of_mem hrow)
  simp [hg row hrow, hw]

namespace RatMatrix

theorem width_eq_height {m : RatMatrix} (h : m.isSquare = true) : m.width = m.height := by
  have : m.height = m.width := by simpa [isSquare] using h
  exact this.symm

theorem rows_of_ofRows {g : Grid} {m : RatMatrix} (h : ofRows g = .ok m) : m.rows = g := by
  unfold ofRows at h
  split at h
  · split at h
    · cases h; rfl
    · cases h
  · cases h

theorem ofRows_of_rectangular {g : Grid} {w : Nat} (hg : g.Rectangular w) (hpos : 0 < g.length)
    (hw : 0 < w) : ∃ m, ofRows g = .ok m := by
  have hwidth : 0 < g.width := width_eq hg hpos ▸ hw
  unfold ofRows
  rw [dif_pos hwidth]
  split
  · exact ⟨_, rfl⟩
  · rename_i i hr
    rw [ragged?_eq_none hg] at hr
    cases hr

theorem shape_of_ofRows {g : Grid} {m : RatMatrix} {w : Nat} (hg : g.Rectangular w)
    (hpos : 0 < g.length) (h : ofRows g = .ok m) : m.shape = (g.length, w) := by
  rw [shape, height, width, rows_of_ofRows h, width_eq hg hpos]

end RatMatrix

end MatrixScript
