import MatrixScript.Proofs.FinishedColumns
import MatrixScript.Proofs.ReducedForms

/-!
# Repeated eliminations

A grid that an elimination has left needs no further one.  In each column the second pass finds the
pivot of the first pass in its place, with nothing left to clear, or again no pivot.
-/

namespace MatrixScript

open Grid

/-! ## Operations that change nothing -/

namespace Grid

variable {g : Grid} {r : Nat}

theorem set_getD_self (hr : r < g.length) : g.set r (g.getD r []) = g := by
  rw [List.getD_eq_getElem _ _ hr, List.set_getElem_self]

theorem swap_self (hr : r < g.length) : g.swap r r = g := by
  rw [swap, List.set_set, set_getD_self hr]

theorem divideRow_one {d : Fraction} (hr : r < g.length) (hd : d.toRat = 1) :
    g.divideRow r d = .ok g := by
  have hx : ∀ x : Fraction, x.div d = .ok x := fun x => by
    rw [Fraction.div_eq_ok_iff, hd, div_one]
    exact ⟨one_ne_zero, rfl⟩
  have hrow : (g.getD r []).mapM (·.div d) = .ok (g.getD r []) := by
    rw [mapM_ok (g := id) fun x _ => hx x, List.map_id]
  rw [divideRow, hrow]
  exact congrArg Except.ok (set_getD_self hr)

end Grid

namespace Elimination

variable {mode : Mode} {start g : Grid} {w c cols r : Nat} {s s' e : Elimination}

theorem pivotRow?_of_forall_zero (h : ∀ i, r ≤ i → g.value i c = 0) : pivotRow? g r c = none := by
  refine List.find?_eq_none.mpr fun k hk => ?_
  have hz : (g.entry k c).isZero = true := isZero_entry_iff.mpr (h k (List.mem_range'_1.mp hk).1)
  rw [hz]
  exact Bool.false_ne_true

theorem pivotRow?_of_ne_zero (h : g.value r c ≠ 0) : pivotRow? g r c = some r := by
  have hr := lt_length_of_value_ne_zero h
  obtain ⟨n, hn⟩ : ∃ n, g.length - r = n + 1 := ⟨g.length - r - 1, by omega⟩
  have hz : (g.entry r c).isZero = false := Fraction.isZero_eq_false_iff.mpr h
  rw [pivotRow?, hn, List.range'_succ, List.find?_cons, hz]
  rfl

/-- Where the column is clear there is nothing to subtract. -/
theorem clearColumn_of_isPivot (h : IsPivot mode g r c) : clearColumn mode.above g r c = .ok g := by
  have hrow : ∀ x ∈ g.zipIdx,
      (if x.2 = r ∨ (x.2 < r ∧ ¬mode.above) ∨ (x.1.getD c 0).isZero then pure x.1
        else clearRow (g.getD r []) c x.1) = .ok x.1 := by
    rintro ⟨row, i⟩ hx
    refine if_pos ?_
    by_cases hi : i = r
    · exact Or.inl hi
    · by_cases hz : g.value i c = 0
      · refine Or.inr (Or.inr (Fraction.isZero_iff.mpr ?_))
        rwa [value_eq_rowValue, getD_of_mem_zipIdx hx] at hz
      · have hlt : i < r := Nat.lt_of_not_le fun hle => hz (h.below i (by omega))
        exact Or.inr (Or.inl ⟨hlt, fun ha => hz (h.others ha i hi)⟩)
  rw [clearColumn, mapM_ok hrow, List.zipIdx_map_fst]

theorem step_of_forall_zero (hr : s.row < s.grid.length)
    (h : ∀ i, s.row ≤ i → s.grid.value i c = 0) :
    step mode s c = .ok { s with row := if mode.diagonal then s.row + 1 else s.row } :=
  step_of_pivotRow?_eq_none hr (pivotRow?_of_forall_zero h)

theorem step_of_isPivot (h : IsPivot mode s.grid s.row c) :
    step mode s c = .ok { s with row := s.row + 1, pivots := s.pivots ++ [(s.row, c)] } := by
  have hr := lt_length_of_value_ne_zero h.ne_zero
  have hfinish : (if mode.normalize then s.grid.divideRow s.row (s.grid.entry s.row c)
      else pure s.grid) = .ok s.grid := by
    split
    · exact divideRow_one hr (h.one ‹_›)
    · rfl
  refine (step_of_pivotRow?_eq_ok_iff hr (pivotRow?_of_ne_zero h.ne_zero)).mpr
    ⟨s.grid, ?_, s.grid, ?_, by rw [if_pos rfl]⟩
  · rw [swap_self hr]
    exact clearColumn_of_isPivot h
  · rw [swap_self hr]
    exact hfinish

/-! ## A second pass -/

/-- On a column that is as a step left it, the step does nothing but go on. -/
theorem Step.repeated (h : Step mode w c s s') (hlen : g.length = s.grid.length)
    (hcol : ∀ i, g.value i c = s'.grid.value i c) :
    step mode { s with grid := g, swaps := 0 } c = .ok { s' with grid := g, swaps := 0 } := by
  cases h with
  | exhausted h => exact step_of_length_le (hlen.trans_le h)
  | skipped h hz =>
    exact step_of_forall_zero (hlen.symm ▸ h) fun i hi => (hcol i).trans (hz i hi)
  | pivoted k g' hk hl hp hg =>
    exact step_of_isPivot ((isPivot_of_pivoted hk hl hp hg).congr hcol)

/-- The second pass goes through the rows and pivots of the first one, with the grid as it is. -/
theorem exists_eliminate_repeated (hg : start.Rectangular w)
    (h : eliminate start cols mode = .ok e) (hc : c ≤ cols) :
    ∃ s, eliminate start c mode = .ok s ∧
      eliminate e.grid c mode = .ok { s with grid := e.grid, swaps := 0 } := by
  induction c with
  | zero => exact ⟨⟨start, 0, [], 0⟩, rfl, rfl⟩
  | succ c ih =>
    obtain ⟨s, s', hs, hs', hstep, hcol⟩ := exists_step_of_eliminate hg h hc
    obtain ⟨t, ht, hrepeat⟩ := ih (Nat.le_of_lt hc)
    cases hs.symm.trans ht
    have hlen : e.grid.length = s.grid.length :=
      (reached_of_eliminate hg h).length.trans (reached_of_eliminate hg hs).length.symm
    refine ⟨s', hs', ?_⟩
    rw [eliminate_succ, hrepeat]
    exact hstep.repeated hlen hcol

end Elimination

/-! ## A second reduction -/

namespace Reduction

/-- Reducing a reduced form changes nothing, at no column of the second pass. -/
theorem form_repeated {r : Reduction} {m n : RatMatrix} (hr : r.IsForm)
    (h : r.apply m = .ok (.matrix n)) :
    r.apply n = .ok (.matrix n) ∧
      ∀ c ≤ n.width, ∃ s, eliminate n.rows c r.mode = .ok s ∧ s.grid = n.rows ∧ s.swaps = 0 := by
  have hwidth : n.width = m.width := congrArg Prod.snd (hr.shape_eq h)
  obtain ⟨e, he, hn⟩ := hr.apply_eq_ok_iff.mp h
  have hrows : n.rows = e.grid := RatMatrix.rows_of_ofRows hn
  have hpass : ∀ c ≤ n.width, ∃ s, eliminate n.rows c r.mode = .ok s ∧ s.grid = n.rows ∧
      s.swaps = 0 := fun c hc => by
    obtain ⟨s, -, hs⟩ :=
      Elimination.exists_eliminate_repeated m.rectangular he (hc.trans_eq hwidth)
    rw [hrows]
    exact ⟨_, hs, rfl, rfl⟩
  obtain ⟨s, hs, hgrid, -⟩ := hpass n.width (Nat.le_refl _)
  refine ⟨hr.apply_eq_ok_iff.mpr ⟨s, hs, ?_⟩, hpass⟩
  rw [hgrid, hrows]
  exact hn

/-- A diagonal form whose second column has no pivot and keeps an entry above the diagonal. -/
theorem form_repeated_of_gap :
    let m : RatMatrix := ⟨[[0, 0, 1], [1, .ofInt64 3, 0], [1, .ofInt64 3, .ofInt64 4]],
      by decide, by decide⟩
    let n : RatMatrix := ⟨[[1, .ofInt64 3, 0], [0, 0, 0], [0, 0, .ofInt64 4]], by decide, by decide⟩
    toDiagonal.IsForm ∧ toDiagonal.apply m = .ok (.matrix n) ∧
    toDiagonal.apply n = .ok (.matrix n) ∧
    ∀ c ≤ n.width, ∃ s, eliminate n.rows c toDiagonal.mode = .ok s ∧ s.grid = n.rows ∧
      s.swaps = 0 := by
  intro m n
  have hr : toDiagonal.IsForm := Or.inr (Or.inl rfl)
  have h : toDiagonal.apply m = .ok (.matrix n) := by decide +kernel
  exact ⟨hr, h, form_repeated hr h⟩

end Reduction

end MatrixScript
