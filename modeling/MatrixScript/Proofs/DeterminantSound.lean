import MatrixScript.Proofs.FullRank
import MatrixScript.Proofs.ProductSound

/-!
# The determinant

`determinant_sound`: what `RatMatrix.determinant` gives is the determinant over the rational numbers.
-/

namespace MatrixScript

open Grid

/-! ## The product of the diagonal -/

theorem toRat_foldlM_mul {α : Type} {f : α → Fraction} {xs : List α} {start d : Fraction}
    (h : xs.foldlM (fun product x => product.mul (f x)) start = Except.ok d) :
    d.toRat = start.toRat * (xs.map fun x => (f x).toRat).prod := by
  induction xs generalizing start with
  | nil => cases h; simp
  | cons x xs ih =>
    rw [List.foldlM_cons, bind_eq_ok_iff] at h
    obtain ⟨product, hp, h⟩ := h
    rw [ih h, Fraction.mul_eq_ok_iff.mp hp, List.map_cons, List.prod_cons, mul_assoc]

namespace Elimination

theorem toRat_sign {e : Elimination} {d : Fraction}
    (h : (if e.swaps % 2 = 0 then pure 1 else Fraction.neg 1) = .ok d) :
    d.toRat = (-1) ^ e.swaps := by
  split at h
  · rename_i hs
    cases h
    rw [Fraction.toRat_one, Even.neg_one_pow (Nat.even_iff.mpr hs)]
  · rename_i hs
    rw [Fraction.neg_eq_ok_iff, Fraction.toRat_one] at h
    rw [h, Odd.neg_one_pow (Nat.odd_iff.mpr (by omega))]

theorem signedDiagonal_eq (e : Elimination) :
    e.signedDiagonal = ((if e.swaps % 2 = 0 then pure 1 else Fraction.neg 1) >>= fun sign =>
      e.grid.zipIdx.foldlM (fun product x => product.mul (x.1.getD x.2 0)) sign) := by
  rw [signedDiagonal]
  split <;> rfl

theorem toRat_signedDiagonal {e : Elimination} {d : Fraction} {n : Nat} (hn : e.grid.length = n)
    (h : e.signedDiagonal = .ok d) :
    d.toRat = (-1) ^ e.swaps * ∏ i : Fin n, e.grid.value i i := by
  have hdiag : e.grid.zipIdx.map (fun x => (x.1.getD x.2 0).toRat) =
      List.ofFn fun i : Fin n => e.grid.value i i := by
    apply List.ext_getElem
    · simp [hn]
    · intro i hi _
      have hi' : i < e.grid.length := by simpa using hi
      simp [value_eq_getElem hi', rowValue]
  rw [signedDiagonal_eq, bind_eq_ok_iff] at h
  obtain ⟨sign, hs, h⟩ := h
  rw [toRat_foldlM_mul h, toRat_sign hs, hdiag, List.prod_ofFn]

end Elimination

/-! ## The determinant of a matrix -/

namespace RatMatrix

theorem det_of_determinant {m : RatMatrix} {d : Fraction} (h : m.determinant = .ok d) :
    m.isSquare = true ∧ d.toRat = (m.rows.toMatrix m.height m.height).det := by
  rw [determinant, bind_eq_ok_iff] at h
  obtain ⟨e, he, h⟩ := h
  obtain ⟨hs, he⟩ := Reduction.run_eq_ok he
  have hs := hs rfl
  rw [width_eq_height hs] at he
  have hr := Elimination.reached_of_eliminate m.rectangular he
  refine ⟨hs, ?_⟩
  split at h
  · rename_i hlt
    cases h
    exact (hr.det_eq_zero rfl hlt).symm
  · rename_i hge
    have hn := Nat.le_antisymm (hr.length_pivots_le rfl) (Nat.not_lt.mp hge)
    rw [Elimination.toRat_signedDiagonal hr.length (mapError_eq_ok_iff.mp h)]
    exact (hr.det_eq rfl rfl rfl hn).symm

/-- `Matrix.det` is the sum over all permutations, so the determinant of a product is the product of
the determinants, as far as these can be computed. -/
theorem determinant_sound :
    (∀ (m : RatMatrix) (d : Fraction), m.determinant = .ok d →
      m.isSquare = true ∧ d.toRat = (m.rows.toMatrix m.height m.height).det) ∧
    ∀ (a b ab : RatMatrix) (x y z : Fraction), a.mul b = .ok ab → a.determinant = .ok x →
      b.determinant = .ok y → ab.determinant = .ok z → x.mul y = .ok z := by
  refine ⟨fun m d h => det_of_determinant h, fun a b ab x y z hab hx hy hz => ?_⟩
  obtain ⟨ha, hx⟩ := det_of_determinant hx
  obtain ⟨hb, hy⟩ := det_of_determinant hy
  obtain ⟨-, hz⟩ := det_of_determinant hz
  obtain ⟨hw, hm⟩ := rows_of_mul hab
  have hab' := toMatrix_mul hab
  have hheight : ab.height = a.height := length_mul hm
  have hsize : b.height = a.height := hw.symm.trans (width_eq_height ha)
  rw [width_eq_height hb, hsize] at hab'
  rw [hsize] at hy
  rw [hheight, hab', Matrix.det_mul, ← hx, ← hy] at hz
  exact Fraction.mul_eq_ok_iff.mpr hz

/-- A row swap times a matrix of determinant two. -/
theorem determinant_sound_of_swap :
    let a : RatMatrix := ⟨[[0, 1], [1, 0]], by decide, by decide⟩
    let b : RatMatrix := ⟨[[1, 1], [1, .ofInt64 3]], by decide, by decide⟩
    let ab : RatMatrix := ⟨[[1, .ofInt64 3], [1, 1]], by decide, by decide⟩
    a.mul b = .ok ab ∧ a.determinant = .ok (.ofInt64 (-1)) ∧ b.determinant = .ok (.ofInt64 2) ∧
    ab.determinant = .ok (.ofInt64 (-2)) ∧
    (a.isSquare = true ∧ (Fraction.ofInt64 (-1)).toRat = (a.rows.toMatrix a.height a.height).det) ∧
    (Fraction.ofInt64 (-1)).mul (.ofInt64 2) = .ok (.ofInt64 (-2)) := by
  intro a b ab
  have hab : a.mul b = .ok ab := by decide +kernel
  have ha : a.determinant = .ok (.ofInt64 (-1)) := by decide +kernel
  have hb : b.determinant = .ok (.ofInt64 2) := by decide +kernel
  have hc : ab.determinant = .ok (.ofInt64 (-2)) := by decide +kernel
  exact ⟨hab, ha, hb, hc, determinant_sound.1 a _ ha, determinant_sound.2 a b ab _ _ _ hab ha hb hc⟩

end RatMatrix

end MatrixScript
