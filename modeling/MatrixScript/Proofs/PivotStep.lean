import Mathlib.Tactic.Ring
import MatrixScript.Proofs.GridValues

/-!
# One step of the elimination

A step either leaves the grid alone, because its rows are used up or its column has no pivot, or it
swaps a pivot into the current row and replaces each row by a combination of itself and the pivot
row.  `Step` lists these outcomes, `step_eq_ok` says that there are no others.
-/

namespace MatrixScript

namespace Elimination

open Grid

/-! ## The search for a pivot -/

section
variable {g : Grid} {r c k : Nat}

theorem pivotRow?_eq_none (h : pivotRow? g r c = none) {i : Nat} (hi : r ≤ i) : g.value i c = 0 := by
  rcases Nat.lt_or_ge i g.length with hl | hl
  · have := List.find?_eq_none.mp h i (List.mem_range'_1.mpr ⟨hi, by omega⟩)
    simpa [isZero_entry_iff] using this
  · exact value_of_length_le hl c

theorem pivotRow?_eq_some (h : pivotRow? g r c = some k) :
    r ≤ k ∧ k < g.length ∧ g.value k c ≠ 0 := by
  have hm := List.mem_range'_1.mp (List.mem_of_find?_eq_some h)
  have hp := List.find?_some h
  have hv : g.value k c ≠ 0 := by
    simp only [Bool.not_eq_true'] at hp
    exact Fraction.isZero_eq_false_iff.mp hp
  exact ⟨hm.1, lt_length_of_value_ne_zero hv, hv⟩

end

/-! ## Clearing a column -/

section
variable {g g' : Grid} {above : Bool} {w r c : Nat}

theorem clearRow_eq_ok {pivotRow row row' : List Fraction} (hl : pivotRow.length ≤ row.length)
    (h : clearRow pivotRow c row = .ok row') :
    row'.length = row.length ∧ ∀ j, rowValue row' j =
      rowValue row j - rowValue row c / rowValue pivotRow c * rowValue pivotRow j := by
  rw [clearRow, bind_eq_ok_iff] at h
  obtain ⟨f, hf, hs⟩ := h
  have hv : f.toRat = rowValue row c / rowValue pivotRow c := (Fraction.div_eq_ok_iff.mp hf).2
  refine ⟨length_subtractMultiple hs, fun j => ?_⟩
  rw [rowValue_subtractMultiple hs hl, hv]

theorem clearRow_error {pivotRow row : List Fraction} {e : ArithmeticError}
    (hp : rowValue pivotRow c ≠ 0) (h : clearRow pivotRow c row = .error e) : e = .overflow := by
  rw [clearRow, bind_eq_error_iff] at h
  rcases h with h | ⟨f, -, h⟩
  · exact Fraction.div_error hp h
  · exact subtractMultiple_error h

theorem length_clearColumn (h : clearColumn above g r c = .ok g') : g'.length = g.length := by
  simpa using length_mapM h

theorem getD_clearColumn (h : clearColumn above g r c = .ok g') {i : Nat} (hi : i < g.length) :
    (if i = r ∨ (i < r ∧ ¬above) ∨ ((g.getD i []).getD c 0).isZero then pure (g.getD i [])
      else clearRow (g.getD r []) c (g.getD i [])) = .ok (g'.getD i []) := by
  have hi' : i < g'.length := (length_clearColumn h).symm ▸ hi
  have := getElem_mapM h (by simpa using hi) hi'
  rw [List.getD_eq_getElem _ _ hi, List.getD_eq_getElem _ _ hi']
  simpa using this

theorem clearColumn_row (hg : g.Rectangular w) (hr : r < g.length)
    (h : clearColumn above g r c = .ok g') {i : Nat} (hi : i < g.length) :
    (g'.getD i []).length = w ∧ ∀ j, g'.value i j = g.value i j -
      (if i = r ∨ (i < r ∧ above = false) then 0 else g.value i c / g.value r c) * g.value r j := by
  have hlen := length_getD hg hi
  have hrow := getD_clearColumn h hi
  split at hrow
  · rename_i hs
    have heq : g.getD i [] = g'.getD i [] := Except.ok.inj hrow
    refine ⟨heq ▸ hlen, fun j => ?_⟩
    rw [value_eq_rowValue g', ← heq, ← value_eq_rowValue]
    rcases hs with hs | hs | hs
    · simp [hs]
    · simp [hs]
    · have hz : g.value i c = 0 := Fraction.isZero_iff.mp hs
      simp [hz]
  · rename_i hs
    have hl : (g.getD r []).length ≤ (g.getD i []).length := by rw [length_getD hg hr, hlen]
    obtain ⟨hlen', hval⟩ := clearRow_eq_ok hl hrow
    refine ⟨hlen'.trans hlen, fun j => ?_⟩
    have hs' : ¬(i = r ∨ (i < r ∧ above = false)) := by
      rintro (h | h)
      · exact hs (Or.inl h)
      · exact hs (Or.inr (Or.inl (by simpa using h)))
    rw [if_neg hs']
    exact hval j

theorem value_clearColumn (hg : g.Rectangular w) (hr : r < g.length)
    (h : clearColumn above g r c = .ok g') (i j : Nat) :
    g'.value i j = g.value i j -
      (if i = r ∨ (i < r ∧ above = false) then 0 else g.value i c / g.value r c) * g.value r j := by
  rcases Nat.lt_or_ge i g.length with hi | hi
  · exact (clearColumn_row hg hr h hi).2 j
  · rw [value_of_length_le hi, value_of_length_le hi, value_of_length_le (length_clearColumn h ▸ hi)]
    simp

theorem rectangular_clearColumn (hg : g.Rectangular w) (hr : r < g.length)
    (h : clearColumn above g r c = .ok g') : g'.Rectangular w := by
  intro row hrow
  obtain ⟨i, hi, rfl⟩ := List.mem_iff_getElem.mp hrow
  have := (clearColumn_row hg hr h (length_clearColumn h ▸ hi)).1
  rwa [List.getD_eq_getElem _ _ hi] at this

theorem clearColumn_error {e : ArithmeticError} (hp : g.value r c ≠ 0)
    (h : clearColumn above g r c = .error e) : e = .overflow := by
  obtain ⟨⟨row, i⟩, -, h⟩ := mapM_eq_error h
  simp only at h
  split at h
  · cases h
  · exact clearRow_error hp h

end

/-! ## Dividing the pivot row -/

section
variable {g g' : Grid} {d : Fraction} {w r : Nat}

theorem divideRow_eq_ok (h : g.divideRow r d = .ok g') :
    ∃ row, List.Forall₂ (fun x y => x.div d = .ok y) (g.getD r []) row ∧ g' = g.set r row := by
  rw [divideRow, bind_eq_ok_iff] at h
  obtain ⟨row, hr, h⟩ := h
  exact ⟨row, mapM_eq_ok_iff.mp hr, (Except.ok.inj h).symm⟩

theorem length_divideRow (h : g.divideRow r d = .ok g') : g'.length = g.length := by
  obtain ⟨row, -, rfl⟩ := divideRow_eq_ok h
  exact List.length_set

theorem rectangular_divideRow (hg : g.Rectangular w) (hr : r < g.length)
    (h : g.divideRow r d = .ok g') : g'.Rectangular w := by
  obtain ⟨row, hd, rfl⟩ := divideRow_eq_ok h
  intro row' hrow'
  rcases List.mem_or_eq_of_mem_set hrow' with h | rfl
  · exact hg row' h
  · rw [← hd.length_eq, length_getD hg hr]

theorem value_divideRow (hr : r < g.length) (h : g.divideRow r d = .ok g') (i j : Nat) :
    g'.value i j = if i = r then g.value r j / d.toRat else g.value i j := by
  obtain ⟨row, hd, rfl⟩ := divideRow_eq_ok h
  simp only [value_eq_rowValue, List.getD_eq_getElem?_getD, List.getElem?_set]
  by_cases hi : i = r
  · subst hi
    simpa [hr] using rowValue_of_forall₂_div hd j
  · simp [hi, Ne.symm hi]

theorem divideRow_error {e : ArithmeticError} (hd : d.toRat ≠ 0) (h : g.divideRow r d = .error e) :
    e = .overflow := by
  rw [divideRow, bind_eq_error_iff] at h
  rcases h with h | ⟨row, -, h⟩
  · obtain ⟨x, -, hx⟩ := mapM_eq_error h
    exact Fraction.div_error hd hx
  · cases h

end

/-! ## The outcomes of a step -/

/-- The multiple of the pivot row `r` that becomes part of row `i` when column `c` is cleared. -/
def weight (mode : Mode) (g : Grid) (r c i : Nat) : ℚ :=
  if i = r then (if mode.normalize then (g.value r c)⁻¹ else 1)
  else if i < r ∧ mode.above = false then 0
  else -(g.value i c / g.value r c)

structure Pivoted (mode : Mode) (w : Nat) (g : Grid) (r c : Nat) (g' : Grid) : Prop where
  length : g'.length = g.length
  rectangular : g'.Rectangular w
  value : ∀ i j, g'.value i j = (if i = r then 0 else g.value i j) + weight mode g r c i * g.value r j

inductive Step (mode : Mode) (w c : Nat) (s : Elimination) : Elimination → Prop
  | exhausted (h : s.grid.length ≤ s.row) : Step mode w c s s
  | skipped (h : s.row < s.grid.length) (hz : ∀ i, s.row ≤ i → s.grid.value i c = 0) :
    Step mode w c s { s with row := if mode.diagonal then s.row + 1 else s.row }
  | pivoted (k : Nat) (g : Grid) (hk : s.row ≤ k) (hl : k < s.grid.length)
    (hp : s.grid.value k c ≠ 0) (hg : Pivoted mode w (s.grid.swap s.row k) s.row c g) :
    Step mode w c s {
      grid := g
      row := s.row + 1
      pivots := s.pivots ++ [(s.row, c)]
      swaps := if k = s.row then s.swaps else s.swaps + 1 }

section
variable {mode : Mode} {g cleared g' : Grid} {w r c : Nat} {s s' : Elimination}

theorem value_sub_eq_add_weight {i : Nat} (hi : i ≠ r) (j : Nat) :
    g.value i j - (if i = r ∨ (i < r ∧ mode.above = false) then 0
      else g.value i c / g.value r c) * g.value r j =
    g.value i j + weight mode g r c i * g.value r j := by
  rw [weight, if_neg hi]
  by_cases ha : i < r ∧ mode.above = false
  · simp [hi, ha]
  · simp only [hi, ha, false_or, ite_false]; ring

theorem Pivoted.of_ok (hg : g.Rectangular w) (hr : r < g.length)
    (hc : clearColumn mode.above g r c = .ok cleared)
    (hf : (if mode.normalize then cleared.divideRow r (g.entry r c) else pure cleared) = .ok g') :
    Pivoted mode w g r c g' := by
  have hlen := length_clearColumn hc
  have hrect := rectangular_clearColumn hg hr hc
  have hval := value_clearColumn hg hr hc
  cases hn : mode.normalize with
  | false =>
    simp only [hn, Bool.false_eq_true, ite_false] at hf
    cases hf
    refine ⟨hlen, hrect, fun i j => ?_⟩
    rw [hval]
    by_cases hi : i = r
    · simp [weight, hi, hn]
    · rw [if_neg hi, value_sub_eq_add_weight hi]
  | true =>
    simp only [hn, ite_true] at hf
    have hr' : r < cleared.length := hlen ▸ hr
    refine ⟨(length_divideRow hf).trans hlen, rectangular_divideRow hrect hr' hf, fun i j => ?_⟩
    rw [value_divideRow hr' hf]
    by_cases hi : i = r
    · simp only [weight, hi, hn, ite_true, hval, true_or, zero_mul, sub_zero, zero_add]
      exact div_eq_inv_mul _ _
    · rw [if_neg hi, if_neg hi, hval, value_sub_eq_add_weight hi]

theorem step_of_length_le (hr : s.grid.length ≤ s.row) : step mode s c = .ok s :=
  if_neg (Nat.not_lt.mpr hr)

theorem step_of_pivotRow?_eq_none (hr : s.row < s.grid.length)
    (hf : pivotRow? s.grid s.row c = none) :
    step mode s c = .ok { s with row := if mode.diagonal then s.row + 1 else s.row } := by
  rw [step, if_pos hr, hf]
  rfl

theorem step_of_pivotRow?_eq_some {k : Nat} (hr : s.row < s.grid.length)
    (hf : pivotRow? s.grid s.row c = some k) :
    step mode s c = (clearColumn mode.above (s.grid.swap s.row k) s.row c >>= fun cleared =>
      (if mode.normalize then cleared.divideRow s.row ((s.grid.swap s.row k).entry s.row c)
        else pure cleared) >>= fun g => pure {
          grid := g
          row := s.row + 1
          pivots := s.pivots ++ [(s.row, c)]
          swaps := if k = s.row then s.swaps else s.swaps + 1 }) := by
  rw [step, if_pos hr, hf]
  cases mode.normalize <;> rfl

theorem step_of_pivotRow?_eq_ok_iff {k : Nat} (hr : s.row < s.grid.length)
    (hf : pivotRow? s.grid s.row c = some k) : step mode s c = .ok s' ↔
      ∃ cleared, clearColumn mode.above (s.grid.swap s.row k) s.row c = .ok cleared ∧
      ∃ g, (if mode.normalize then cleared.divideRow s.row ((s.grid.swap s.row k).entry s.row c)
        else pure cleared) = .ok g ∧ {
          grid := g
          row := s.row + 1
          pivots := s.pivots ++ [(s.row, c)]
          swaps := if k = s.row then s.swaps else s.swaps + 1 } = s' := by
  rw [step_of_pivotRow?_eq_some hr hf]
  simp only [bind_eq_ok_iff, pure, Except.pure, Except.ok.injEq]

theorem step_eq_ok (hs : s.grid.Rectangular w) (h : step mode s c = .ok s') :
    Step mode w c s s' := by
  rcases Nat.lt_or_ge s.row s.grid.length with hr | hr
  · cases hf : pivotRow? s.grid s.row c with
    | none =>
      rw [step_of_pivotRow?_eq_none hr hf] at h
      cases h
      exact .skipped hr fun i hi => pivotRow?_eq_none hf hi
    | some k =>
      obtain ⟨hk, hl, hp⟩ := pivotRow?_eq_some hf
      obtain ⟨cleared, hc, g, hg, rfl⟩ := (step_of_pivotRow?_eq_ok_iff hr hf).mp h
      have hr' : s.row < (s.grid.swap s.row k).length := length_swap s.grid s.row k ▸ hr
      exact .pivoted k g hk hl hp (.of_ok (hs.swap hr hl) hr' hc hg)
  · rw [step_of_length_le hr] at h
    cases h
    exact .exhausted hr

theorem step_error {e : ArithmeticError} (h : step mode s c = .error e) : e = .overflow := by
  rcases Nat.lt_or_ge s.row s.grid.length with hr | hr
  · cases hf : pivotRow? s.grid s.row c with
    | none => rw [step_of_pivotRow?_eq_none hr hf] at h; cases h
    | some k =>
      obtain ⟨hk, hl, hp⟩ := pivotRow?_eq_some hf
      have hp' : (s.grid.swap s.row k).value s.row c ≠ 0 := value_swap_ne_zero hk hl hp
      rw [step_of_pivotRow?_eq_some hr hf] at h
      simp only [bind_eq_error_iff] at h
      rcases h with h | ⟨cleared, -, h | ⟨g, -, h⟩⟩
      · exact clearColumn_error hp' h
      · split at h
        · exact divideRow_error hp' h
        · cases h
      · cases h
  · rw [step_of_length_le hr] at h
    cases h

end

end Elimination

end MatrixScript
