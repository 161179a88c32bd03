import MatrixScript.Proofs.FullRank

/-!
# Reduced forms

Three of the reductions give a form of the matrix itself: the rows that its elimination leaves, which
are again the rows of a matrix of its shape.
-/

namespace MatrixScript

namespace Reduction

def IsForm (r : Reduction) : Prop := r = .rref ∨ r = .toDiagonal ∨ r = .toTriangle

variable {r : Reduction} {m n : RatMatrix}

theorem IsForm.start_eq (hr : r.IsForm) (m : RatMatrix) : r.start m = m.rows := by
  rcases hr with rfl | rfl | rfl
  · rfl
  · rfl
  · rfl

theorem IsForm.apply_eq (hr : r.IsForm) (m : RatMatrix) :
    r.apply m = .matrix <$> ((eliminate m.rows m.width r.mode).mapError .arithmetic >>=
      fun e => RatMatrix.ofRows e.grid) := by
  rcases hr with rfl | rfl | rfl
  · rfl
  · rfl
  · rfl

theorem IsForm.apply_eq_ok_iff (hr : r.IsForm) : r.apply m = .ok (.matrix n) ↔
    ∃ e, eliminate m.rows m.width r.mode = .ok e ∧ RatMatrix.ofRows e.grid = .ok n := by
  rw [hr.apply_eq, map_eq_ok_iff]
  constructor
  · rintro ⟨n', h, hn⟩
    cases hn
    obtain ⟨e, he, h⟩ := bind_eq_ok_iff.mp h
    exact ⟨e, mapError_eq_ok_iff.mp he, h⟩
  · rintro ⟨e, he, h⟩
    exact ⟨n, bind_eq_ok_iff.mpr ⟨e, mapError_eq_ok_iff.mpr he, h⟩, rfl⟩

theorem IsForm.exists_apply (hr : r.IsForm) {e : Elimination}
    (he : eliminate m.rows m.width r.mode = .ok e) : ∃ n, r.apply m = .ok (.matrix n) := by
  have hreached := Elimination.reached_of_eliminate m.rectangular he
  obtain ⟨n, hn⟩ := RatMatrix.ofRows_of_rectangular hreached.rectangular
    (hreached.length.symm ▸ m.height_pos) m.width_pos
  exact ⟨n, hr.apply_eq_ok_iff.mpr ⟨e, he, hn⟩⟩

section
variable (hr : r.IsForm) (h : r.apply m = .ok (.matrix n))
include hr h

theorem IsForm.exists_eliminate : ∃ e, eliminate m.rows m.width r.mode = .ok e ∧
    Elimination.Reached r.mode m.rows m.width m.width e ∧ n.rows = e.grid := by
  obtain ⟨e, he, hn⟩ := hr.apply_eq_ok_iff.mp h
  exact ⟨e, he, Elimination.reached_of_eliminate m.rectangular he, RatMatrix.rows_of_ofRows hn⟩

theorem IsForm.shape_eq : n.shape = m.shape := by
  obtain ⟨e, he, hn⟩ := hr.apply_eq_ok_iff.mp h
  have hreached := Elimination.reached_of_eliminate m.rectangular he
  rw [RatMatrix.shape_of_ofRows hreached.rectangular (hreached.length.symm ▸ m.height_pos) hn,
    hreached.length]
  rfl

end

end Reduction

end MatrixScript
