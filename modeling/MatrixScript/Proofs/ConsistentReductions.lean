import MatrixScript.Proofs.ComparedModes
import MatrixScript.Proofs.DeterminantSound
import MatrixScript.Proofs.InverseSound
import MatrixScript.Proofs.LeadingColumns
import MatrixScript.Proofs.ReducedForms

/-!
# Reductions that agree with each other

The reductions run eliminations of one matrix in different modes, or with more columns.  They find the
same pivots, so they agree on which matrices are singular.  But the rank, which leaves its pivots
undivided, can be out of reach where the inverse is not.
-/

namespace MatrixScript

open Grid

theorem Grid.leading_beside {a b : Grid} {w : Nat} (ha : a.Rectangular w)
    (hl : a.length = b.length) : (a.beside b).leading w = a := by
  refine List.ext_getElem ?_ fun i hi hi' => ?_
  · rw [length_leading, length_beside hl]
  · have hw := ha _ (List.getElem_mem hi')
    simp only [leading, beside, List.getElem_map, List.getElem_zipWith]
    exact List.take_left' hw

theorem Elimination.Reached.length_pivots_lt_iff {mode : Mode} {start : Grid} {w : Nat}
    {e : Elimination} (h : Reached mode start w start.length e) (hd : mode.diagonal = false)
    (hno : mode.normalize = false) (ha : mode.above = true) :
    e.pivots.length < start.length ↔ (start.toMatrix start.length start.length).det = 0 := by
  refine ⟨h.det_eq_zero hd, fun hdet => ?_⟩
  by_contra hge
  have hn := Nat.le_antisymm (h.length_pivots_le hd) (Nat.not_lt.mp hge)
  rw [h.det_eq hd hno ha hn] at hdet
  rcases mul_eq_zero.mp hdet with hsign | hprod
  · exact pow_ne_zero _ (neg_ne_zero.mpr one_ne_zero) hsign
  · obtain ⟨i, -, hi⟩ := Finset.prod_eq_zero_iff.mp hprod
    exact (h.isPivot_diagonal hd hn i.isLt).ne_zero hi

namespace RatMatrix

variable {m : RatMatrix} {e : Elimination}

theorem rank_of_eliminate (he : eliminate m.rows m.width Reduction.rank.mode = .ok e) :
    m.rank = .ok e.pivots.length := by
  have hrun : Reduction.rank.run m = .ok e := mapError_eq_ok_iff.mpr he
  rw [rank, hrun]
  rfl

theorem rank_of_overflow (he : eliminate m.rows m.width Reduction.rank.mode = .error .overflow) :
    m.rank = .error (.arithmetic .overflow) := by
  have hrun : Reduction.rank.run m = .error (.arithmetic .overflow) :=
    mapError_eq_error_iff.mpr ⟨_, he, rfl⟩
  rw [rank, hrun]
  rfl

theorem exists_rref (he : eliminate m.rows m.width Reduction.rref.mode = .ok e) :
    ∃ r, m.rref = .ok r := by
  have hform : Reduction.rref.IsForm := Or.inl rfl
  obtain ⟨n, hn⟩ := hform.exists_apply he
  obtain ⟨r, hr, -⟩ := map_eq_ok_iff.mp hn
  exact ⟨r, hr⟩

/-- The elimination for the determinant is the one for the rank. -/
theorem exists_rank_of_determinant {d : Fraction} (h : m.determinant = .ok d) :
    ∃ k, m.rank = .ok k ∧ (k < m.height ↔ d = 0) := by
  obtain ⟨hs, hdet⟩ := det_of_determinant h
  rw [determinant, bind_eq_ok_iff] at h
  obtain ⟨e, he, -⟩ := h
  obtain ⟨-, he⟩ := Reduction.run_eq_ok he
  refine ⟨_, rank_of_eliminate he, ?_⟩
  rw [width_eq_height hs] at he
  have hreached := Elimination.reached_of_eliminate m.rectangular he
  rw [← Fraction.toRat_injective.eq_iff, hdet]
  exact hreached.length_pivots_lt_iff rfl rfl rfl

/-- What the elimination of the matrix alone does, and that for the rank, if the inverse has one. -/
theorem eliminate_of_run (hs : m.isSquare = true) (h : Reduction.inverse.run m = .ok e) :
    (∃ r, m.rref = .ok r) ∧
      (m.rank = .ok e.pivots.length ∨ m.rank = .error (.arithmetic .overflow)) := by
  obtain ⟨-, he⟩ := Reduction.run_eq_ok h
  have hrect : m.rows.Rectangular m.width := m.rectangular
  have hlead := Elimination.eliminate_leading (Nat.le_refl m.width) he
  rw [Reduction.start, leading_beside hrect (length_rows_eq_identity hs)] at hlead
  refine ⟨exists_rref hlead, ?_⟩
  have hm : Reduction.rank.mode.Within Reduction.inverse.mode :=
    ⟨fun _ => rfl, fun _ => rfl, rfl⟩
  rcases Elimination.eliminate_within hm hlead with ⟨e', he', hp, -⟩ | ⟨-, -, -, hover⟩
  · rw [rank_of_eliminate he', hp]
    exact Or.inl rfl
  · exact Or.inr (rank_of_overflow hover)

theorem full_rank_of_inverse {b : RatMatrix} (h : m.inverse = .ok b) : (∃ r, m.rref = .ok r) ∧
    (m.rank = .ok m.height ∨ m.rank = .error (.arithmetic .overflow)) := by
  obtain ⟨hs, -, e, he, hn⟩ := exists_run_of_inverse h
  rw [← hn]
  exact eliminate_of_run hs he

theorem lower_rank_of_singular (hs : m.isSquare = true) (h : m.inverse = .error .singular) :
    (∃ r, m.rref = .ok r) ∧
      ((∃ k < m.height, m.rank = .ok k) ∨ m.rank = .error (.arithmetic .overflow)) := by
  cases he : Reduction.inverse.run m with
  | error x =>
    rw [inverse, he, Reduction.run_error hs he] at h
    cases h
  | ok e =>
    obtain ⟨hr, hk⟩ := eliminate_of_run hs he
    exact ⟨hr, hk.imp_left fun hk => ⟨_, (inverse_error he h).2, hk⟩⟩

/-- Of two modes with the same search the one that does less succeeds with the other, unless it clears
the rows above with pivots that the other divides; columns to the right change nothing. -/
theorem reductions_consistent :
    (∀ (mode mode' : Mode) (g : Grid) (cols : Nat) (e' : Elimination), mode.Within mode' →
      eliminate g cols mode' = .ok e' →
      (∃ e, eliminate g cols mode = .ok e ∧ e.pivots = e'.pivots ∧ e.swaps = e'.swaps) ∨
      (mode.above = true ∧ mode.normalize = false ∧ mode'.normalize = true ∧
        eliminate g cols mode = .error .overflow)) ∧
    (∀ (mode : Mode) (a b : Grid) (cols : Nat) (e : Elimination), a.Rectangular cols →
      a.length = b.length → eliminate (a.beside b) cols mode = .ok e →
      eliminate a cols mode = .ok { e with grid := e.grid.leading cols }) ∧
    ∀ m : RatMatrix, m.isSquare = true →
      (∀ d, m.determinant = .ok d → ∃ k, m.rank = .ok k ∧ (k < m.height ↔ d = 0)) ∧
      (∀ b, m.inverse = .ok b → (∃ r, m.rref = .ok r) ∧
        (m.rank = .ok m.height ∨ m.rank = .error (.arithmetic .overflow))) ∧
      (m.inverse = .error .singular → (∃ r, m.rref = .ok r) ∧
        ((∃ k < m.height, m.rank = .ok k) ∨ m.rank = .error (.arithmetic .overflow))) := by
  refine ⟨fun _ _ _ _ _ hm he => Elimination.eliminate_within hm he, fun mode a b cols e ha hl he => ?_,
    fun m hs => ⟨fun d hd => exists_rank_of_determinant hd, fun b hb => full_rank_of_inverse hb,
      lower_rank_of_singular hs⟩⟩
  have hlead := Elimination.eliminate_leading (Nat.le_refl cols) he
  rwa [leading_beside ha hl] at hlead

/-- A matrix that has an inverse, with a first pivot to swap in, and one of rank one. -/
theorem reductions_consistent_of_two :
    let half : Fraction := ⟨1, 2, by decide, by decide, by decide, by decide⟩
    let m : RatMatrix := ⟨[[0, 1], [.ofInt64 2, 0]], by decide, by decide⟩
    let b : RatMatrix := ⟨[[0, half], [1, 0]], by decide, by decide⟩
    let s : RatMatrix := ⟨[[1, 1], [1, 1]], by decide, by decide⟩
    let e : Elimination := ⟨[[1, 0, 0, half], [0, 1, 1, 0]], 2, [(0, 0), (1, 1)], 1⟩
    let e' : Elimination := ⟨[[1, 1], [0, 0]], 1, [(0, 0)], 0⟩
    (Mode.Within ⟨false, false, false⟩ ⟨true, true, false⟩ ∧
      eliminate s.rows 2 ⟨true, true, false⟩ = .ok e' ∧
      ((∃ e, eliminate s.rows 2 ⟨false, false, false⟩ = .ok e ∧ e.pivots = e'.pivots ∧
        e.swaps = e'.swaps) ∨
      (false = true ∧ false = false ∧ true = true ∧
        eliminate s.rows 2 ⟨false, false, false⟩ = .error .overflow))) ∧
    (m.rows.Rectangular 2 ∧ m.rows.length = (Grid.identity 2).length ∧
      eliminate (m.rows.beside (Grid.identity 2)) 2 ⟨true, true, false⟩ = .ok e ∧
      eliminate m.rows 2 ⟨true, true, false⟩ = .ok { e with grid := e.grid.leading 2 }) ∧
    (m.isSquare = true ∧ m.determinant = .ok (.ofInt64 (-2)) ∧
      (∃ k, m.rank = .ok k ∧ (k < m.height ↔ Fraction.ofInt64 (-2) = 0)) ∧
      m.inverse = .ok b ∧ (∃ r, m.rref = .ok r) ∧
      (m.rank = .ok m.height ∨ m.rank = .error (.arithmetic .overflow))) ∧
    s.isSquare = true ∧ s.inverse = .error .singular ∧ (∃ r, s.rref = .ok r) ∧
      ((∃ k < s.height, s.rank = .ok k) ∨ s.rank = .error (.arithmetic .overflow)) := by
  intro half m b s e e'
  have hw : Mode.Within ⟨false, false, false⟩ ⟨true, true, false⟩ :=
    ⟨fun _ => rfl, fun _ => rfl, rfl⟩
  have he' : eliminate s.rows 2 ⟨true, true, false⟩ = .ok e' := by decide +kernel
  have hrect : m.rows.Rectangular 2 := m.rectangular
  have he : eliminate (m.rows.beside (Grid.identity 2)) 2 ⟨true, true, false⟩ = .ok e := by
    decide +kernel
  have hd : m.determinant = .ok (.ofInt64 (-2)) := by decide +kernel
  have hb : m.inverse = .ok b := by decide +kernel
  have hs : s.inverse = .error .singular := by decide +kernel
  obtain ⟨hmodes, hblock, hsquare⟩ := reductions_consistent
  obtain ⟨hdet, hinv, -⟩ := hsquare m (by decide)
  exact ⟨⟨hw, he', hmodes _ _ _ _ _ hw he'⟩, ⟨hrect, rfl, he, hblock _ _ (Grid.identity 2) _ _ hrect rfl he⟩,
    ⟨by decide, hd, hdet _ hd, hb, hinv b hb⟩, by decide, hs, (hsquare s (by decide)).2.2 hs⟩

/-- Divided by its pivot, the first row is cleared by four times the second one, and otherwise by a
multiple of it that is too large.  So the rank overflows where the inverse is found, or where a row of
zeros makes the matrix singular. -/
theorem rank_overflows_beside_inverse :
    let large : Fraction := .ofInt64 4611686018427387904
    let quarter : Fraction := ⟨1, 4, by decide, by decide, by decide, by decide⟩
    let m : RatMatrix := ⟨[[large, large], [0, quarter]], by decide, by decide⟩
    let s : RatMatrix := ⟨[[large, large, 0], [0, quarter, 0], [0, 0, 0]], by decide, by decide⟩
    Mode.Within ⟨false, true, false⟩ ⟨true, true, false⟩ ∧
    (∃ e, eliminate m.rows 2 ⟨true, true, false⟩ = .ok e) ∧
    eliminate m.rows 2 ⟨false, true, false⟩ = .error .overflow ∧
    m.isSquare = true ∧ (∃ b, m.inverse = .ok b) ∧ m.rank = .error (.arithmetic .overflow) ∧
    s.isSquare = true ∧ s.inverse = .error .singular ∧ s.rank = .error (.arithmetic .overflow) := by
  intro large quarter m s
  let e : Elimination := ⟨[[1, 0], [0, 1]], 2, [(0, 0), (1, 1)], 0⟩
  let b : RatMatrix := ⟨[[⟨1, 4611686018427387904, by decide, by decide, by decide, by decide⟩,
    .ofInt64 (-4)], [0, .ofInt64 4]], by decide, by decide⟩
  have he : eliminate m.rows 2 ⟨true, true, false⟩ = .ok e := by decide +kernel
  have hb : m.inverse = .ok b := by decide +kernel
  exact ⟨⟨fun _ => rfl, fun _ => rfl, rfl⟩, ⟨e, he⟩, by decide +kernel, by decide, ⟨b, hb⟩,
    by decide +kernel, by decide, by decide +kernel, by decide +kernel⟩

end RatMatrix

end MatrixScript
