import MatrixScript.Proofs.FinishedColumns

/-!
# The elimination of the leading columns

The rows may go on to the right of the columns that pivots come from.  What is done to the leading
columns does not depend on the rest, so cutting the rows off and eliminating is eliminating and
cutting off.
-/

namespace MatrixScript

/-! ## Rows that are cut off -/

namespace Grid

def leading (g : Grid) (n : Nat) : Grid := g.map (·.take n)

variable {n c : Nat}

theorem length_leading (g : Grid) (n : Nat) : (g.leading n).length = g.length := List.length_map _

theorem getD_leading (g : Grid) (n i : Nat) : (g.leading n).getD i [] = (g.getD i []).take n := by
  have h := List.getD_map (l := g) (n := i) (d := []) (·.take n)
  rwa [List.take_nil] at h

theorem getD_take (row : List Fraction) (hc : c < n) : (row.take n).getD c 0 = row.getD c 0 := by
  rw [List.getD_eq_getElem?_getD, List.getElem?_take_of_lt hc, ← List.getD_eq_getElem?_getD]

theorem entry_leading (g : Grid) (hc : c < n) (i : Nat) : (g.leading n).entry i c = g.entry i c := by
  rw [entry, getD_leading, getD_take _ hc, entry]

theorem swap_leading (g : Grid) (n r k : Nat) : (g.leading n).swap r k = (g.swap r k).leading n := by
  rw [swap, getD_leading, getD_leading, leading, ← List.map_set, ← List.map_set]
  rfl

theorem subtractMultiple_take {f : Fraction} {xs ps ys : List Fraction}
    (h : subtractMultiple f xs ps = .ok ys) (n : Nat) :
    subtractMultiple f (xs.take n) (ps.take n) = .ok (ys.take n) := by
  induction n generalizing xs ps ys with
  | zero => rfl
  | succ n ih =>
    cases xs with
    | nil => cases ps <;> cases h <;> rfl
    | cons x xs =>
      cases ps with
      | nil => cases h; rfl
      | cons p ps =>
        simp only [subtractMultiple, bind_eq_ok_iff] at h
        obtain ⟨q, hq, y, hy, zs, hz, h⟩ := h
        cases h
        simp only [List.take_succ_cons, subtractMultiple, bind_eq_ok_iff]
        exact ⟨q, hq, y, hy, zs.take n, ih hz, rfl⟩

theorem divideRow_leading {g g' : Grid} {r : Nat} {d : Fraction} (h : g.divideRow r d = .ok g') :
    (g.leading n).divideRow r d = .ok (g'.leading n) := by
  rw [divideRow, bind_eq_ok_iff] at h
  obtain ⟨row, hrow, h⟩ := h
  cases h
  have htake : ((g.getD r []).take n).mapM (·.div d) = .ok (row.take n) :=
    mapM_eq_ok_iff.mpr (List.forall₂_take n (mapM_eq_ok_iff.mp hrow))
  rw [divideRow, getD_leading, htake, leading, leading, List.map_set]
  rfl

end Grid

namespace Elimination

open Grid

/-! ## One step -/

section
variable {g g' : Grid} {n c r : Nat} {above : Bool}

theorem pivotRow?_leading (hc : c < n) : pivotRow? (g.leading n) r c = pivotRow? g r c := by
  rw [pivotRow?, pivotRow?, length_leading]
  refine List.find?_congr fun k _ => ?_
  rw [entry_leading g hc]

theorem clearRow_take {pivotRow row row' : List Fraction} (hc : c < n)
    (h : clearRow pivotRow c row = .ok row') :
    clearRow (pivotRow.take n) c (row.take n) = .ok (row'.take n) := by
  rw [clearRow, bind_eq_ok_iff] at h
  obtain ⟨f, hf, h⟩ := h
  rw [clearRow, getD_take _ hc, getD_take _ hc, hf]
  exact subtractMultiple_take h n

theorem clearColumn_leading (hc : c < n) (h : clearColumn above g r c = .ok g') :
    clearColumn above (g.leading n) r c = .ok (g'.leading n) := by
  rw [clearColumn, mapM_eq_ok_iff] at h ⊢
  rw [leading, leading, List.zipIdx_map, List.forall₂_map_left_iff, List.forall₂_map_right_iff]
  refine h.imp fun ⟨row, i⟩ row' hrow => ?_
  simp only [Prod.map_apply, id_eq, getD_take _ hc] at hrow ⊢
  split at hrow
  · cases hrow
    exact if_pos ‹_›
  · rw [if_neg ‹_›, ← leading, getD_leading]
    exact clearRow_take hc hrow

end

/-! ## The whole pass -/

variable {mode : Mode} {g : Grid} {n c cols : Nat} {s s' e : Elimination}

theorem step_leading (hc : c < n) (h : step mode s c = .ok s') :
    step mode { s with grid := s.grid.leading n } c = .ok { s' with grid := s'.grid.leading n } := by
  rcases Nat.lt_or_ge s.row s.grid.length with hr | hr
  · have hr' : s.row < (s.grid.leading n).length := length_leading s.grid n ▸ hr
    cases hf : pivotRow? s.grid s.row c with
    | none =>
      rw [step_of_pivotRow?_eq_none hr hf] at h
      cases h
      exact step_of_pivotRow?_eq_none hr' ((pivotRow?_leading hc).trans hf)
    | some k =>
      obtain ⟨x, hx, x', hx', rfl⟩ := (step_of_pivotRow?_eq_ok_iff hr hf).mp h
      have hf' : pivotRow? (s.grid.leading n) s.row c = some k := (pivotRow?_leading hc).trans hf
      have hclear := clearColumn_leading hc hx
      rw [← swap_leading] at hclear
      refine (step_of_pivotRow?_eq_ok_iff hr' hf').mpr ⟨_, hclear, x'.leading n, ?_, rfl⟩
      rw [swap_leading, entry_leading _ hc]
      split at hx'
      · exact (if_pos ‹_›).trans (divideRow_leading hx')
      · cases hx'
        exact if_neg ‹_›
  · rw [step_of_length_le hr] at h
    cases h
    exact step_of_length_le ((length_leading s.grid n).trans_le hr)

theorem eliminate_leading (hn : cols ≤ n) (h : eliminate g cols mode = .ok e) :
    eliminate (g.leading n) cols mode = .ok { e with grid := e.grid.leading n } := by
  induction cols generalizing e with
  | zero => cases h; rfl
  | succ c ih =>
    rw [eliminate_succ, bind_eq_ok_iff] at h
    obtain ⟨s, hs, h⟩ := h
    rw [eliminate_succ, ih (Nat.le_of_lt hn) hs]
    exact step_leading hn h

end Elimination

end MatrixScript
