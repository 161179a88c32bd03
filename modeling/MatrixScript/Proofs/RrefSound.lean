import MatrixScript.Proofs.PivotColumns
import MatrixScript.Proofs.ReducedForms

/-!
# The reduced row echelon form

`rref_sound`: what `RatMatrix.rref` gives is in reduced row echelon form and has the same row space.
So it depends on the shape and the row space only.
-/

namespace MatrixScript

open Grid

theorem Grid.eq_of_toMatrix_eq {g g' : Grid} {h w : Nat} (hg : g.Rectangular w)
    (hg' : g'.Rectangular w) (hl : g.length = h) (hl' : g'.length = h)
    (heq : g.toMatrix h w = g'.toMatrix h w) : g = g' := by
  refine List.ext_getElem (hl.trans hl'.symm) fun i hi hi' => ?_
  have hlen := hg _ (List.getElem_mem hi)
  have hlen' := hg' _ (List.getElem_mem hi')
  refine List.ext_getElem (hlen.trans hlen'.symm) fun j hj hj' => ?_
  have hval : g.value i j = g'.value i j := congrFun (congrFun heq ⟨i, hl ▸ hi⟩) ⟨j, hlen ▸ hj⟩
  rw [value_eq_getElem hi, value_eq_getElem hi', rowValue_eq_getElem hj,
    rowValue_eq_getElem hj'] at hval
  exact Fraction.toRat_injective hval

namespace RatMatrix

theorem eq_of_rows_eq {m n : RatMatrix} (h : m.rows = n.rows) : m = n := by
  cases m
  cases n
  cases h
  rfl

section
variable {m r : RatMatrix} (h : m.rref = .ok r)
include h

theorem apply_rref : Reduction.rref.apply m = .ok (.matrix r) := by
  rw [Reduction.apply, h]
  rfl

theorem reached_of_rref :
    ∃ e, Elimination.Reached Reduction.rref.mode m.rows m.width m.width e ∧ r.rows = e.grid := by
  have hform : Reduction.rref.IsForm := Or.inl rfl
  obtain ⟨e, -, he, hr⟩ := hform.exists_eliminate (apply_rref h)
  exact ⟨e, he, hr⟩

theorem shape_of_rref : r.shape = m.shape := Reduction.IsForm.shape_eq (Or.inl rfl) (apply_rref h)

theorem isReducedRowEchelon_of_rref :
    (r.rows.toMatrix m.height m.width).IsReducedRowEchelon := by
  obtain ⟨e, he, hr⟩ := reached_of_rref h
  rw [hr]
  exact he.isReducedRowEchelon rfl rfl rfl

theorem rowSpace_of_rref :
    rowSpace (r.rows.toMatrix m.height m.width) = rowSpace (m.rows.toMatrix m.height m.width) := by
  obtain ⟨e, he, hr⟩ := reached_of_rref h
  rw [hr]
  exact he.rowSpace_eq

end

/-- Row spaces of matrices of one shape are spaces of vectors of one length. -/
theorem rref_sound :
    (∀ m r : RatMatrix, m.rref = .ok r → r.shape = m.shape ∧
      (r.rows.toMatrix m.height m.width).IsReducedRowEchelon ∧
      rowSpace (r.rows.toMatrix m.height m.width) =
        rowSpace (m.rows.toMatrix m.height m.width)) ∧
    ∀ m n r s : RatMatrix, m.shape = n.shape →
      rowSpace (m.rows.toMatrix m.height m.width) = rowSpace (n.rows.toMatrix m.height m.width) →
      m.rref = .ok r → n.rref = .ok s → r = s := by
  refine ⟨fun m r h => ⟨shape_of_rref h, isReducedRowEchelon_of_rref h, rowSpace_of_rref h⟩,
    fun m n r s hshape hspace hr hs => ?_⟩
  obtain ⟨hheight, hwidth⟩ := Prod.mk.inj hshape
  have hr' := shape_of_rref hr
  have hs' := (shape_of_rref hs).trans hshape.symm
  have hspace' := rowSpace_of_rref hs
  have hreduced' := isReducedRowEchelon_of_rref hs
  rw [← hheight, ← hwidth] at hspace' hreduced'
  have heq : r.rows.toMatrix m.height m.width = s.rows.toMatrix m.height m.width :=
    eq_of_rowSpace_eq hreduced' ((rowSpace_of_rref hr).trans (hspace.trans hspace'.symm))
      (isReducedRowEchelon_of_rref hr)
  obtain ⟨hrh, hrw⟩ := Prod.mk.inj hr'
  obtain ⟨hsh, hsw⟩ := Prod.mk.inj hs'
  have hrectr : r.rows.Rectangular m.width := fun row hrow => (r.rectangular row hrow).trans hrw
  have hrects : s.rows.Rectangular m.width := fun row hrow => (s.rectangular row hrow).trans hsw
  exact eq_of_rows_eq (Grid.eq_of_toMatrix_eq hrectr hrects hrh hsh heq)

/-- Two matrices of rank one with a zero column, which have their pivots in different rows. -/
theorem rref_sound_of_rank_one :
    let m : RatMatrix := ⟨[[0, .ofInt64 2, .ofInt64 4], [0, 1, .ofInt64 2]], by decide, by decide⟩
    let n : RatMatrix := ⟨[[0, 0, 0], [0, .ofInt64 3, .ofInt64 6]], by decide, by decide⟩
    let r : RatMatrix := ⟨[[0, 1, .ofInt64 2], [0, 0, 0]], by decide, by decide⟩
    m.rref = .ok r ∧ (r.shape = m.shape ∧ (r.rows.toMatrix m.height m.width).IsReducedRowEchelon ∧
      rowSpace (r.rows.toMatrix m.height m.width) =
        rowSpace (m.rows.toMatrix m.height m.width)) ∧
    m.shape = n.shape ∧
    rowSpace (m.rows.toMatrix m.height m.width) = rowSpace (n.rows.toMatrix m.height m.width) ∧
    n.rref = .ok r ∧ r = r := by
  intro m n r
  have hm : m.rref = .ok r := by decide +kernel
  have hn : n.rref = .ok r := by decide +kernel
  have hr := rref_sound.1 m r hm
  have hspace := hr.2.2.symm.trans (rref_sound.1 n r hn).2.2
  exact ⟨hm, hr, rfl, hspace, hn, rref_sound.2 m n r r rfl hspace hm hn⟩

end RatMatrix

end MatrixScript
