import Mathlib.Algebra.BigOperators.Fin
import Mathlib.LinearAlgebra.Matrix.Defs
import MatrixScript.Proofs.MatrixRows
import MatrixScript.Proofs.RowOperations

/-!
# Products of grids

A product that succeeds is the product of the matrices of rational numbers.
-/

namespace MatrixScript

namespace Grid

variable {g h p : Grid}

theorem toRat_foldlM_dot {ps : List (Fraction × Fraction)} {start d : Fraction}
    (hd : ps.foldlM (fun sum (x, y) => do sum.add (← x.mul y)) start = Except.ok d) :
    d.toRat = start.toRat + (ps.map fun q => q.1.toRat * q.2.toRat).sum := by
  induction ps generalizing start with
  | nil => cases hd; simp
  | cons q ps ih =>
    simp only [List.foldlM_cons, bind_eq_ok_iff] at hd
    obtain ⟨sum, ⟨x, hx, hsum⟩, hd⟩ := hd
    rw [Fraction.mul_eq_ok_iff] at hx
    rw [Fraction.add_eq_ok_iff, hx] at hsum
    rw [ih hd, hsum, List.map_cons, List.sum_cons, add_assoc]

theorem toRat_dot {xs ys : List Fraction} {d : Fraction} {n : Nat} (hx : xs.length = n)
    (hy : ys.length = n) (hd : dot xs ys = .ok d) :
    d.toRat = ∑ k : Fin n, rowValue xs k * rowValue ys k := by
  have hzip : (xs.zip ys).map (fun q => q.1.toRat * q.2.toRat) =
      List.ofFn fun k : Fin n => rowValue xs k * rowValue ys k := by
    apply List.ext_getElem
    · simp [hx, hy]
    · intro k hk _
      have hkx : k < xs.length := by simp at hk; omega
      have hky : k < ys.length := by simp at hk; omega
      simp [rowValue_eq_getElem hkx, rowValue_eq_getElem hky]
  rw [toRat_foldlM_dot hd, hzip, List.sum_ofFn, Fraction.toRat_zero, zero_add]

theorem rowValue_column (g : Grid) (i j : Nat) : rowValue (g.column j) i = g.value i j := by
  rcases Nat.lt_or_ge i g.length with hi | hi
  · rw [value_eq_getElem hi, rowValue_eq_getElem (by simpa [column] using hi)]
    simp [column, rowValue]
  · rw [value_of_length_le hi, rowValue_of_length_le (by simpa [column] using hi)]

theorem length_mul (hp : g.mul h = .ok p) : p.length = g.length :=
  length_mapM hp

theorem value_mul (hg : g.Rectangular h.length) (hp : g.mul h = .ok p) {i j : Nat}
    (hi : i < g.length) (hj : j < h.width) :
    p.value i j = ∑ k : Fin h.length, g.value i k * h.value k j := by
  have hi' : i < p.length := (length_mul hp).symm ▸ hi
  have hrow := getElem_mapM hp hi hi'
  have hj' : j < p[i].length := by rw [length_mapM hrow]; simpa using hj
  have hcell := getElem_mapM hrow (by simpa using hj) hj'
  rw [List.getElem_range] at hcell
  rw [value_eq_getElem hi', rowValue_eq_getElem hj',
    toRat_dot (hg _ (List.getElem_mem hi)) (by simp [column]) hcell]
  refine Finset.sum_congr rfl fun k _ => ?_
  rw [rowValue_column, value_eq_getElem hi]

end Grid

namespace RatMatrix

open Grid

variable {a b ab : RatMatrix}

theorem rows_of_mul (h : a.mul b = .ok ab) :
    a.width = b.height ∧ a.rows.mul b.rows = .ok ab.rows := by
  rw [mul] at h
  split at h
  · rename_i hw
    rw [ofResult, bind_eq_ok_iff] at h
    obtain ⟨rows, hr, h⟩ := h
    cases hm : a.rows.mul b.rows with
    | error e => rw [hm] at hr; cases hr
    | ok g =>
      rw [hm] at hr
      cases hr
      exact ⟨hw, congrArg Except.ok (rows_of_ofRows h).symm⟩
  · cases h

theorem toMatrix_mul (h : a.mul b = .ok ab) :
    ab.rows.toMatrix a.height b.width =
      a.rows.toMatrix a.height b.height * b.rows.toMatrix b.height b.width := by
  obtain ⟨hw, hm⟩ := rows_of_mul h
  have ha : a.rows.Rectangular b.rows.length := fun row hrow => (a.rectangular row hrow).trans hw
  ext i j
  rw [Matrix.mul_apply]
  exact value_mul ha hm i.isLt j.isLt

end RatMatrix

end MatrixScript
