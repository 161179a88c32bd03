import MatrixScript.Proofs.DeterminantSound
import MatrixScript.Proofs.InverseSound
import MatrixScript.Proofs.ReducedForms

/-!
# How reductions end

A reduction fails because the matrix is not square, because it has no inverse, or because a number
leaves the range.  It never divides by zero, as it divides by pivots only, and the rows it computes
are always those of a matrix.
-/

namespace MatrixScript

open Grid

namespace Elimination

theorem sign_error {e : Elimination} {x : ArithmeticError}
    (h : (if e.swaps % 2 = 0 then pure 1 else Fraction.neg 1) = .error x) : x = .overflow := by
  split at h
  · cases h
  · exact Fraction.neg_error h

theorem signedDiagonal_error {e : Elimination} {x : ArithmeticError}
    (h : e.signedDiagonal = .error x) : x = .overflow := by
  rw [signedDiagonal_eq, bind_eq_error_iff] at h
  rcases h with h | ⟨sign, -, h⟩
  · exact sign_error h
  · obtain ⟨product, y, -, h⟩ := foldlM_eq_error h
    exact Fraction.mul_error h

/-- The entry that a step divides by. -/
theorem isZero_pivot {g : Grid} {r c k : Nat} (h : pivotRow? g r c = some k) :
    ((g.swap r k).entry r c).isZero = false := by
  obtain ⟨hk, hl, hp⟩ := pivotRow?_eq_some h
  rw [Fraction.isZero_eq_false_iff]
  exact value_swap_ne_zero hk hl hp

theorem entry_clearColumn {g g' : Grid} {above : Bool} {r c : Nat} (hr : r < g.length)
    (h : clearColumn above g r c = .ok g') : g'.entry r c = g.entry r c := by
  have hrow := getD_clearColumn h hr
  rw [if_pos (Or.inl rfl)] at hrow
  rw [entry, entry, Except.ok.inj hrow]

end Elimination

theorem RatMatrix.determinant_error {m : RatMatrix} {e : Elimination} {x : MatrixError}
    (he : Reduction.determinant.run m = .ok e) (h : m.determinant = .error x) :
    x = .arithmetic .overflow := by
  rw [determinant, bind_eq_error_iff] at h
  rcases h with h | ⟨e', -, h⟩
  · rw [he] at h
    cases h
  · split at h
    · cases h
    · obtain ⟨y, hy, rfl⟩ := mapError_eq_error_iff.mp h
      rw [Elimination.signedDiagonal_error hy]

namespace Reduction

variable {r : Reduction} {m n : RatMatrix} {e : Elimination} {x : MatrixError}

theorem requiresSquare_iff : r.requiresSquare = true ↔ r = .inverse ∨ r = .determinant := by
  cases r <;> simp [requiresSquare]

theorem apply_of_run (h : r.run m = .error x) : r.apply m = .error x := by
  cases r with
  | rref => rw [apply, RatMatrix.rref, h]; rfl
  | toDiagonal => rw [apply, RatMatrix.toDiagonal, h]; rfl
  | toTriangle => rw [apply, RatMatrix.toTriangle, h]; rfl
  | inverse => rw [apply, RatMatrix.inverse, h]; rfl
  | determinant => rw [apply, RatMatrix.determinant, h]; rfl
  | rank => rw [apply, RatMatrix.rank, h]; rfl

theorem IsForm.apply_ne_error (hr : r.IsForm) (he : r.run m = .ok e) : r.apply m ≠ .error x := by
  obtain ⟨-, he⟩ := run_eq_ok he
  rw [hr.start_eq] at he
  obtain ⟨n, hn⟩ := hr.exists_apply he
  rw [hn]
  intro h
  cases h

theorem apply_error_of_run (he : r.run m = .ok e) (h : r.apply m = .error x) :
    (x = .singular ∧ r = .inverse) ∨ x = .arithmetic .overflow := by
  cases r with
  | rref => exact absurd h (IsForm.apply_ne_error (Or.inl rfl) he)
  | toDiagonal => exact absurd h (IsForm.apply_ne_error (Or.inr (Or.inl rfl)) he)
  | toTriangle => exact absurd h (IsForm.apply_ne_error (Or.inr (Or.inr rfl)) he)
  | inverse => exact Or.inl ⟨(RatMatrix.inverse_error he (map_eq_error_iff.mp h)).1, rfl⟩
  | determinant => exact Or.inr (RatMatrix.determinant_error he (map_eq_error_iff.mp h))
  | rank =>
    rw [apply, RatMatrix.rank, he] at h
    cases h

theorem apply_error (h : r.apply m = .error x) :
    (x = .notSquare m.height m.width ∧ r.requiresSquare = true ∧ m.height ≠ m.width) ∨
      (x = .singular ∧ r = .inverse) ∨ x = .arithmetic .overflow := by
  cases he : r.run m with
  | error y =>
    rw [apply_of_run he] at h
    cases h
    exact (run_eq_error he).imp_right Or.inr
  | ok e => exact Or.inr (apply_error_of_run he h)

theorem shape_of_apply (h : r.apply m = .ok (.matrix n)) : n.shape = m.shape := by
  cases r with
  | rref => exact IsForm.shape_eq (Or.inl rfl) h
  | toDiagonal => exact IsForm.shape_eq (Or.inr (Or.inl rfl)) h
  | toTriangle => exact IsForm.shape_eq (Or.inr (Or.inr rfl)) h
  | inverse =>
    obtain ⟨b, hb, hn⟩ := map_eq_ok_iff.mp h
    cases hn
    exact (RatMatrix.exists_run_of_inverse hb).2.1
  | determinant =>
    obtain ⟨d, -, hn⟩ := map_eq_ok_iff.mp h
    cases hn
  | rank =>
    obtain ⟨k, -, hn⟩ := map_eq_ok_iff.mp h
    cases hn

/-- What is divided by is the pivot, which is still in its place once the other rows are cleared. -/
theorem apply_outcome (r : Reduction) (m : RatMatrix) :
    ((∃ rows cols, r.apply m = .error (.notSquare rows cols)) ↔
      (r = .inverse ∨ r = .determinant) ∧ m.height ≠ m.width) ∧
    (∀ x, r.apply m = .error x → x = .notSquare m.height m.width ∨
      (x = .singular ∧ r = .inverse) ∨ x = .arithmetic .overflow) ∧
    (∀ n, r.apply m = .ok (.matrix n) → n.shape = m.shape) ∧
    ∀ c s k, eliminate (r.start m) c r.mode = .ok s →
      Elimination.pivotRow? s.grid s.row c = some k →
      ((s.grid.swap s.row k).entry s.row c).isZero = false ∧
      ∀ g, Elimination.clearColumn r.mode.above (s.grid.swap s.row k) s.row c = .ok g →
        g.entry s.row c = (s.grid.swap s.row k).entry s.row c := by
  rw [← requiresSquare_iff]
  refine ⟨⟨?_, fun ⟨hr, hs⟩ => ⟨_, _, apply_of_run (run_of_not_square hr hs)⟩⟩,
    fun x h => (apply_error h).imp_left And.left, fun n h => shape_of_apply h,
    fun c s k _ hk => ⟨Elimination.isZero_pivot hk, fun g hg => ?_⟩⟩
  · rintro ⟨rows, cols, h⟩
    rcases apply_error h with ⟨-, hs⟩ | ⟨h, -⟩ | h
    · exact hs
    · cases h
    · cases h
  · obtain ⟨hle, hl, -⟩ := Elimination.pivotRow?_eq_some hk
    exact Elimination.entry_clearColumn (by rw [length_swap]; omega) hg

/-- A row, a matrix of rank one, one whose rank is out of reach, and one with a pivot to swap in. -/
theorem apply_outcome_of_four :
    let large : Fraction := .ofInt64 4611686018427387904
    let quarter : Fraction := ⟨1, 4, by decide, by decide, by decide, by decide⟩
    let row : RatMatrix := ⟨[[1, .ofInt64 2]], by decide, by decide⟩
    let s : RatMatrix := ⟨[[1, 1], [1, 1]], by decide, by decide⟩
    let t : RatMatrix := ⟨[[large, large], [0, quarter]], by decide, by decide⟩
    let m : RatMatrix := ⟨[[0, 1], [.ofInt64 2, 0], [.ofInt64 2, 1]], by decide, by decide⟩
    let n : RatMatrix := ⟨[[1, 0], [0, 1], [0, 0]], by decide, by decide⟩
    let cleared : Grid := [[.ofInt64 2, 0], [0, 1], [0, 1]]
    (∃ rows cols, Reduction.determinant.apply row = .error (.notSquare rows cols)) ∧
    Reduction.inverse.apply s = .error .singular ∧
    (MatrixError.singular = .notSquare s.height s.width ∨
      (MatrixError.singular = .singular ∧ Reduction.inverse = .inverse) ∨
      MatrixError.singular = .arithmetic .overflow) ∧
    Reduction.rank.apply t = .error (.arithmetic .overflow) ∧
    (MatrixError.arithmetic .overflow = .notSquare t.height t.width ∨
      (MatrixError.arithmetic .overflow = .singular ∧ Reduction.rank = .inverse) ∨
      MatrixError.arithmetic .overflow = .arithmetic .overflow) ∧
    Reduction.rref.apply m = .ok (.matrix n) ∧ n.shape = m.shape ∧
    eliminate m.rows 0 Reduction.rref.mode = .ok ⟨m.rows, 0, [], 0⟩ ∧
    Elimination.pivotRow? m.rows 0 0 = some 1 ∧ ((m.rows.swap 0 1).entry 0 0).isZero = false ∧
    Elimination.clearColumn true (m.rows.swap 0 1) 0 0 = .ok cleared ∧
    cleared.entry 0 0 = (m.rows.swap 0 1).entry 0 0 := by
  intro large quarter row s t m n cleared
  have hs : Reduction.inverse.apply s = .error .singular := by decide +kernel
  have ht : Reduction.rank.apply t = .error (.arithmetic .overflow) := by decide +kernel
  have hm : Reduction.rref.apply m = .ok (.matrix n) := by decide +kernel
  have hk : Elimination.pivotRow? m.rows 0 0 = some 1 := by decide
  have hc : Elimination.clearColumn true (m.rows.swap 0 1) 0 0 = .ok cleared := by decide +kernel
  obtain ⟨-, -, hshape, hpivot⟩ := apply_outcome .rref m
  obtain ⟨hzero, hkept⟩ := hpivot 0 ⟨m.rows, 0, [], 0⟩ 1 rfl hk
  exact ⟨(apply_outcome .determinant row).1.mpr ⟨Or.inr rfl, by decide⟩, hs,
    (apply_outcome .inverse s).2.1 _ hs, ht, (apply_outcome .rank t).2.1 _ ht, hm, hshape n hm,
    rfl, hk, hzero, hc, hkept cleared hc⟩

end Reduction

end MatrixScript
