import MatrixScript.Proofs.EliminationSound

/-!
# Finished columns

The elimination of the first columns is the beginning of every longer one, and no later step changes
a column that is finished.  So each column of the grid that is left is as its own step left it.
-/

namespace MatrixScript

open Grid

theorem eliminate_succ (g : Grid) (c : Nat) (mode : Mode) :
    eliminate g (c + 1) mode = eliminate g c mode >>= fun s => Elimination.step mode s c := by
  rw [eliminate, List.range_succ, List.foldlM_append]
  simp only [List.foldlM_cons, List.foldlM_nil, bind_pure]
  rfl

namespace Elimination

variable {mode : Mode} {start : Grid} {w c cols : Nat} {s s' e : Elimination}

/-- The step for column `c`, from the state before it to the state after it. -/
theorem exists_step_of_eliminate (hg : start.Rectangular w)
    (h : eliminate start cols mode = .ok e) (hc : c < cols) :
    ∃ s s', eliminate start c mode = .ok s ∧ eliminate start (c + 1) mode = .ok s' ∧
      Step mode w c s s' ∧ ∀ i, e.grid.value i c = s'.grid.value i c := by
  induction cols generalizing e with
  | zero => exact absurd hc (Nat.not_lt_zero c)
  | succ n ih =>
    have hlast := h
    rw [eliminate_succ, bind_eq_ok_iff] at h
    obtain ⟨t, ht, hstep⟩ := h
    have hreached := reached_of_eliminate hg ht
    have hnext := step_eq_ok hreached.rectangular hstep
    rcases Nat.lt_succ_iff_lt_or_eq.mp hc with hlt | rfl
    · obtain ⟨s, s', hs, hs', hss', hcol⟩ := ih ht hlt
      refine ⟨s, s', hs, hs', hss', fun i => ?_⟩
      rw [hnext.value_eq (hreached.settled c hlt), hcol]
    · exact ⟨t, e, ht, hlast, hnext, fun i => rfl⟩

end Elimination

end MatrixScript
