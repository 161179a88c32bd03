import MatrixScript.Proofs.FullRank
import MatrixScript.Proofs.ProductSound

/-!
# The inverse

The matrix is eliminated with an identity beside it.  The factor that turns the matrix into the
identity turns the identity into that factor, which is then the inverse.
-/

namespace MatrixScript

namespace Grid

/-! ## The identity beside a grid -/

theorem length_identity (n : Nat) : (identity n).length = n := by simp [identity]

theorem rectangular_identity (n : Nat) : (identity n).Rectangular n := by
  intro row hrow
  obtain ⟨i, -, rfl⟩ := List.mem_map.mp hrow
  simp

theorem value_identity {n i j : Nat} (hi : i < n) (hj : j < n) :
    (identity n).value i j = if i = j then 1 else 0 := by
  rw [value_eq_getElem ((length_identity n).symm ▸ hi)]
  rw [rowValue_eq_getElem (by simpa [identity] using hj)]
  simp only [identity, List.getElem_map, List.getElem_range]
  split <;> rfl

section
variable {g h : Grid} {v w : Nat}

theorem length_beside (hl : g.length = h.length) : (g.beside h).length = g.length := by
  simp [beside, hl]

theorem rectangular_beside (hg : g.Rectangular w) (hh : h.Rectangular v) :
    (g.beside h).Rectangular (w + v) := by
  intro row hrow
  obtain ⟨i, hi, rfl⟩ := List.mem_iff_getElem.mp hrow
  simp only [beside, List.getElem_zipWith, List.length_append]
  rw [hg _ (List.getElem_mem _), hh _ (List.getElem_mem _)]

theorem rowValue_append {row row' : List Fraction} (hw : row.length = w) (j : Nat) :
    rowValue (row ++ row') j = if j < w then rowValue row j else rowValue row' (j - w) := by
  simp only [rowValue, List.getD_eq_getElem?_getD, List.getElem?_append, hw]
  split <;> rfl

theorem value_beside (hg : g.Rectangular w) (hl : g.length = h.length) {i : Nat}
    (hi : i < g.length) (j : Nat) :
    (g.beside h).value i j = if j < w then g.value i j else h.value i (j - w) := by
  rw [value_eq_getElem ((length_beside hl).symm ▸ hi), value_eq_getElem hi, value_eq_getElem (hl ▸ hi)]
  simp only [beside, List.getElem_zipWith]
  exact rowValue_append (hg _ (List.getElem_mem hi)) j

theorem rectangular_map_drop (hg : g.Rectangular (v + w)) :
    Grid.Rectangular (g.map (·.drop v)) w := by
  intro row hrow
  obtain ⟨row, hmem, rfl⟩ := List.mem_map.mp hrow
  rw [List.length_drop, hg row hmem, Nat.add_sub_cancel_left]

theorem value_map_drop (g : Grid) (w i j : Nat) :
    Grid.value (g.map (·.drop w)) i j = g.value i (w + j) := by
  rcases Nat.lt_or_ge i g.length with hi | hi
  · rw [value_eq_getElem (by simpa using hi), value_eq_getElem hi]
    simp [rowValue]
  · rw [value_of_length_le hi, value_of_length_le (by simpa using hi)]

end

end Grid

namespace Elimination

open Grid

section
variable {mode : Mode} {start : Grid} {w : Nat} {e : Elimination}

/-- If the block to the right of a square block was the identity, it ends as the left inverse. -/
theorem Reached.right_block_mul (h : Reached mode start w start.length e)
    (hd : mode.diagonal = false) (hno : mode.normalize = true) (ha : mode.above = true)
    (hn : e.pivots.length = start.length)
    (hright : Grid.toMatrix (start.map (·.drop start.length)) start.length start.length = 1) :
    Grid.toMatrix (e.grid.map (·.drop start.length)) start.length start.length *
      start.toMatrix start.length start.length = 1 := by
  obtain ⟨P, -, -, hP⟩ := h.transformed
  have hP' : Grid.toMatrix (e.grid.map (·.drop start.length)) start.length start.length = P := by
    rw [← Matrix.mul_one P, ← hright]
    ext i j
    rw [toMatrix_apply, value_map_drop, Matrix.mul_apply]
    simp only [toMatrix_apply, value_map_drop]
    exact congrFun (congrFun hP i) _
  rw [hP', ← toMatrix_eq_mul hP]
  exact h.toMatrix_eq_one hd hno ha hn

end

end Elimination

/-! ## The inverse of a matrix -/

namespace RatMatrix

open Grid

variable {m : RatMatrix}

theorem length_rows_eq_identity (hs : m.isSquare = true) :
    m.rows.length = (Grid.identity m.width).length := by
  rw [length_identity, width_eq_height hs]; rfl

theorem length_start_inverse (hs : m.isSquare = true) :
    (Reduction.inverse.start m).length = m.height := length_beside (length_rows_eq_identity hs)

theorem toMatrix_start_inverse (hs : m.isSquare = true) :
    (Reduction.inverse.start m).toMatrix m.height m.height = m.rows.toMatrix m.height m.height := by
  have hl := length_rows_eq_identity hs
  ext i j
  rw [toMatrix_apply, Reduction.start, value_beside m.rectangular hl i.isLt, if_pos]
  · rfl
  · exact j.isLt.trans_eq (width_eq_height hs).symm

theorem right_block_start_inverse (hs : m.isSquare = true) :
    Grid.toMatrix ((Reduction.inverse.start m).map (·.drop m.height)) m.height m.height = 1 := by
  have hl := length_rows_eq_identity hs
  have hw : m.rows.width = m.height := width_eq_height hs
  ext i j
  rw [toMatrix_apply, value_map_drop, Reduction.start, value_beside m.rectangular hl i.isLt, hw,
    if_neg (by omega), Nat.add_sub_cancel_left, width_eq_height hs, value_identity i.isLt j.isLt,
    Matrix.one_apply]
  simp only [Fin.ext_iff]

theorem reached_inverse {e : Elimination} (hs : m.isSquare = true)
    (h : Reduction.inverse.run m = .ok e) :
    Elimination.Reached Reduction.inverse.mode (Reduction.inverse.start m) (m.height + m.height)
      (Reduction.inverse.start m).length e := by
  obtain ⟨-, he⟩ := Reduction.run_eq_ok h
  have hrect : (Reduction.inverse.start m).Rectangular (m.height + m.height) := by
    have hm : m.rows.Rectangular m.height := width_eq_height hs ▸ m.rectangular
    rw [Reduction.start, width_eq_height hs]
    exact rectangular_beside hm (rectangular_identity m.height)
  rw [width_eq_height hs, ← length_start_inverse hs] at he
  exact Elimination.reached_of_eliminate hrect he

theorem det_eq_zero_of_run {e : Elimination} (hs : m.isSquare = true)
    (h : Reduction.inverse.run m = .ok e) (hlt : e.pivots.length < m.height) :
    (m.rows.toMatrix m.height m.height).det = 0 := by
  have hlen := length_start_inverse hs
  have hdet := (reached_inverse hs h).det_eq_zero rfl (hlen.symm ▸ hlt)
  rwa [hlen, toMatrix_start_inverse hs] at hdet

theorem right_block_mul_of_run {e : Elimination} (hs : m.isSquare = true)
    (h : Reduction.inverse.run m = .ok e) (hge : m.height ≤ e.pivots.length) :
    Grid.toMatrix (e.grid.map (·.drop m.height)) m.height m.height *
      m.rows.toMatrix m.height m.height = 1 := by
  have hlen := length_start_inverse hs
  have hr := reached_inverse hs h
  have hn := Nat.le_antisymm (hr.length_pivots_le rfl) (hlen.symm ▸ hge)
  have hmul := hr.right_block_mul rfl rfl rfl hn (by rw [hlen]; exact right_block_start_inverse hs)
  rwa [hlen, toMatrix_start_inverse hs] at hmul

theorem inverse_of_fewer {e : Elimination} (h : Reduction.inverse.run m = .ok e)
    (hlt : e.pivots.length < m.height) : m.inverse = .error .singular := by
  rw [inverse, h]
  exact if_pos hlt

theorem inverse_of_full {e : Elimination} (hs : m.isSquare = true)
    (h : Reduction.inverse.run m = .ok e) (hge : m.height ≤ e.pivots.length) :
    ∃ b, m.inverse = .ok b ∧ b.shape = m.shape ∧
      b.rows.toMatrix m.height m.height * m.rows.toMatrix m.height m.height = 1 := by
  have hr := reached_inverse hs h
  have hmul := right_block_mul_of_run hs h hge
  have hrect := rectangular_map_drop hr.rectangular
  have hlen : (e.grid.map (·.drop m.height)).length = m.height := by
    rw [List.length_map, hr.length, length_start_inverse hs]
  have hpos : 0 < (e.grid.map (·.drop m.height)).length := hlen.symm ▸ m.height_pos
  obtain ⟨b, hb⟩ := ofRows_of_rectangular hrect hpos m.height_pos
  have hinv : m.inverse = ofRows (e.grid.map (·.drop m.height)) := by
    rw [inverse, h, width_eq_height hs]
    exact if_neg (Nat.not_lt.mpr hge)
  refine ⟨b, hinv.trans hb, ?_, ?_⟩
  · rw [shape_of_ofRows hrect hpos hb, hlen, shape, width_eq_height hs]
  · rwa [rows_of_ofRows hb]

theorem exists_run_of_inverse {b : RatMatrix} (h : m.inverse = .ok b) :
    m.isSquare = true ∧ b.shape = m.shape ∧
      ∃ e, Reduction.inverse.run m = .ok e ∧ e.pivots.length = m.height := by
  cases he : Reduction.inverse.run m with
  | error x =>
    rw [inverse, he] at h
    cases h
  | ok e =>
    have hs := (Reduction.run_eq_ok he).1 rfl
    rcases Nat.lt_or_ge e.pivots.length m.height with hlt | hge
    · rw [inverse_of_fewer he hlt] at h
      cases h
    · obtain ⟨b', hb, hshape, -⟩ := inverse_of_full hs he hge
      have hle := (reached_inverse hs he).length_pivots_le rfl
      rw [length_start_inverse hs] at hle
      rw [hb] at h
      cases h
      exact ⟨hs, hshape, e, rfl, Nat.le_antisymm hle hge⟩

theorem inverse_error {e : Elimination} {x : MatrixError} (he : Reduction.inverse.run m = .ok e)
    (h : m.inverse = .error x) : x = .singular ∧ e.pivots.length < m.height := by
  rcases Nat.lt_or_ge e.pivots.length m.height with hlt | hge
  · rw [inverse_of_fewer he hlt] at h
    cases h
    exact ⟨rfl, hlt⟩
  · obtain ⟨b, hb, -⟩ := inverse_of_full ((Reduction.run_eq_ok he).1 rfl) he hge
    rw [hb] at h
    cases h

/-- A singular matrix gets no inverse, though the elimination may overflow before that is seen. -/
theorem inverse_sound (hs : m.isSquare = true) :
    (∀ b, m.inverse = .ok b → b.shape = m.shape ∧
      m.rows.toMatrix m.height m.height * b.rows.toMatrix m.height m.height = 1 ∧
      b.rows.toMatrix m.height m.height * m.rows.toMatrix m.height m.height = 1) ∧
    (m.inverse = .error .singular → (m.rows.toMatrix m.height m.height).det = 0) ∧
    ((m.rows.toMatrix m.height m.height).det = 0 →
      m.inverse = .error .singular ∨ m.inverse = .error (.arithmetic .overflow)) := by
  cases he : Reduction.inverse.run m with
  | error x =>
    have hx : m.inverse = .error (.arithmetic .overflow) := by
      rw [inverse, he, Reduction.run_error hs he]; rfl
    rw [hx]
    refine ⟨fun b h => ?_, fun h => ?_, fun _ => Or.inr rfl⟩
    · cases h
    · cases h
  | ok e =>
    rcases Nat.lt_or_ge e.pivots.length m.height with hlt | hge
    · rw [inverse_of_fewer he hlt]
      refine ⟨fun b h => ?_, fun _ => det_eq_zero_of_run hs he hlt, fun _ => Or.inl rfl⟩
      cases h
    · obtain ⟨b, hb, hshape, hmul⟩ := inverse_of_full hs he hge
      rw [hb]
      refine ⟨fun b' h => ?_, fun h => ?_, fun hdet => ?_⟩
      · cases h
        exact ⟨hshape, mul_eq_one_comm.mp hmul, hmul⟩
      · cases h
      · have hone := congrArg Matrix.det hmul
        rw [Matrix.det_mul, hdet, mul_zero, Matrix.det_one] at hone
        exact absurd hone zero_ne_one

/-- A matrix whose first pivot has to be swapped in, and one of rank one. -/
theorem inverse_sound_of_two :
    let m : RatMatrix := ⟨[[0, 1], [.ofInt64 2, 0]], by decide, by decide⟩
    let b : RatMatrix := ⟨[[0, ⟨1, 2, by decide, by decide, by decide, by decide⟩], [1, 0]],
      by decide, by decide⟩
    let s : RatMatrix := ⟨[[1, 1], [1, 1]], by decide, by decide⟩
    m.isSquare = true ∧ m.inverse = .ok b ∧ b.shape = m.shape ∧
    m.rows.toMatrix m.height m.height * b.rows.toMatrix m.height m.height = 1 ∧
    b.rows.toMatrix m.height m.height * m.rows.toMatrix m.height m.height = 1 ∧
    s.isSquare = true ∧ s.inverse = .error .singular ∧
    (s.rows.toMatrix s.height s.height).det = 0 ∧
    (s.inverse = .error .singular ∨ s.inverse = .error (.arithmetic .overflow)) := by
  intro m b s
  have hm : m.isSquare = true := by decide
  have hb : m.inverse = .ok b := by decide +kernel
  have hs : s.isSquare = true := by decide
  have hsing : s.inverse = .error .singular := by decide +kernel
  obtain ⟨hshape, hmb, hbm⟩ := (inverse_sound hm).1 b hb
  have hdet := (inverse_sound hs).2.1 hsing
  exact ⟨hm, hb, hshape, hmb, hbm, hs, hsing, hdet, (inverse_sound hs).2.2 hdet⟩

end RatMatrix

end MatrixScript
