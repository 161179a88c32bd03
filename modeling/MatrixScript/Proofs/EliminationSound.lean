import MatrixScript.Proofs.RowOperations

/-!
# Soundness of the elimination

A step changes no column that is zero from the current row on.  So what was reached in the columns
before stays as it is, and only the column of the step has to be looked at.  `eliminate_sound` says
what the whole pass leaves: a multiple of the grid by an invertible matrix, with the pivots, and
with zeros in the shape that the mode asks for.
-/

namespace MatrixScript

namespace Elimination

open Grid

/-! ## The column of a step -/

structure IsPivot (mode : Mode) (g : Grid) (r c : Nat) : Prop where
  ne_zero : g.value r c ≠ 0
  one : mode.normalize = true → g.value r c = 1
  below : ∀ i, r < i → g.value i c = 0
  others : mode.above = true → ∀ i, i ≠ r → g.value i c = 0

theorem IsPivot.congr {mode : Mode} {g g' : Grid} {r c : Nat} (h : ∀ i, g'.value i c = g.value i c)
    (hp : IsPivot mode g r c) : IsPivot mode g' r c where
  ne_zero := h r ▸ hp.ne_zero
  one hn := h r ▸ hp.one hn
  below i hi := h i ▸ hp.below i hi
  others ha i hi := h i ▸ hp.others ha i hi

theorem Pivoted.isPivot {mode : Mode} {w r c : Nat} {g g' : Grid} (h : Pivoted mode w g r c g')
    (hp : g.value r c ≠ 0) : IsPivot mode g' r c := by
  have hpivot : g'.value r c = if mode.normalize then 1 else g.value r c := by
    rw [h.value, weight, if_pos rfl, if_pos rfl, zero_add]
    split
    · exact inv_mul_cancel₀ hp
    · exact one_mul _
  have hother : ∀ i, i ≠ r → ¬(i < r ∧ mode.above = false) → g'.value i c = 0 := by
    intro i hi ha
    rw [h.value, weight, if_neg hi, if_neg hi, if_neg ha, neg_mul, div_mul_cancel₀ _ hp]
    exact add_neg_cancel _
  refine ⟨?_, fun hn => ?_, fun i hi => ?_, fun ha i hi => ?_⟩
  · rw [hpivot]; split
    · exact one_ne_zero
    · exact hp
  · rw [hpivot, if_pos hn]
  · exact hother i (by omega) fun hi' => by omega
  · exact hother i hi fun hi' => by simp [ha] at hi'

theorem isPivot_of_pivoted {mode : Mode} {w r c k : Nat} {g g' : Grid} (hk : r ≤ k)
    (hl : k < g.length) (hp : g.value k c ≠ 0) (hg : Pivoted mode w (g.swap r k) r c g') :
    IsPivot mode g' r c := hg.isPivot (value_swap_ne_zero hk hl hp)

variable {mode : Mode} {start : Grid} {w c : Nat} {s s' : Elimination}

/-- The pivot row of the step is a combination of rows that are zero in column `j`. -/
theorem Step.value_eq (h : Step mode w c s s') {j : Nat}
    (hj : ∀ i, s.row ≤ i → s.grid.value i j = 0) (i : Nat) :
    s'.grid.value i j = s.grid.value i j := by
  cases h with
  | exhausted _ => rfl
  | skipped _ _ => rfl
  | pivoted k g hk hl _ hg =>
    have hr : s.row < s.grid.length := lt_of_le_of_lt hk hl
    have hrow : s.grid.value s.row j = 0 := hj s.row (Nat.le_refl _)
    have hk0 : s.grid.value k j = 0 := hj k hk
    rw [hg.value, value_swap_left hr hl, hk0, mul_zero, add_zero, value_swap hr hl,
      Equiv.swap_apply_def]
    by_cases hi : i = s.row
    · rw [if_pos hi, hi, hrow]
    · rw [if_neg hi, if_neg hi]
      by_cases hik : i = k
      · rw [if_pos hik, hik, hrow, hk0]
      · rw [if_neg hik]

theorem Step.length_eq (h : Step mode w c s s') : s'.grid.length = s.grid.length := by
  cases h with
  | exhausted _ => rfl
  | skipped _ _ => rfl
  | pivoted k g _ _ _ hg => exact hg.length.trans (length_swap _ _ _)

theorem Step.rectangular (h : Step mode w c s s') (hs : s.grid.Rectangular w) :
    s'.grid.Rectangular w := by
  cases h with
  | exhausted _ => exact hs
  | skipped _ _ => exact hs
  | pivoted k g _ _ _ hg => exact hg.rectangular

theorem Step.row_le (h : Step mode w c s s') (hs : s.row ≤ s.grid.length) :
    s'.row ≤ s'.grid.length := by
  rw [h.length_eq]
  cases h with
  | exhausted _ => exact hs
  | skipped h _ => simp only; split <;> omega
  | pivoted k g hk hl _ _ => simp only; omega

/-! ## Finished columns -/

def Settled (c : Nat) (s : Elimination) : Prop := ∀ j, j < c → ∀ i, s.row ≤ i → s.grid.value i j = 0

theorem Step.settled (h : Step mode w c s s') (hs : Settled c s) : Settled (c + 1) s' := by
  intro j hj i hi
  rcases Nat.lt_succ_iff_lt_or_eq.mp hj with hj | rfl
  · rw [h.value_eq (hs j hj)]
    apply hs j hj
    cases h with
    | exhausted _ => exact hi
    | skipped _ _ => simp only at hi; split at hi <;> omega
    | pivoted k g _ _ _ _ => simp only at hi; omega
  · cases h with
    | exhausted h => exact value_of_length_le (h.trans hi) j
    | skipped _ hz => apply hz; simp only at hi; split at hi <;> omega
    | pivoted k g hk hl hp hg => exact (isPivot_of_pivoted hk hl hp hg).below i hi

/-- The pivots so far are in the rows and columns that are finished, and go down to the right. -/
structure Marked (mode : Mode) (c : Nat) (s : Elimination) : Prop where
  before : ∀ p ∈ s.pivots, p.1 < s.row ∧ p.2 < c
  isPivot : ∀ p ∈ s.pivots, IsPivot mode s.grid p.1 p.2
  increasing : s.pivots.Pairwise fun p q => p.1 < q.1 ∧ p.2 < q.2

theorem Step.isPivot (h : Step mode w c s s') (hs : Settled c s) (hm : Marked mode c s) :
    ∀ p ∈ s.pivots, IsPivot mode s'.grid p.1 p.2 :=
  fun p hp => (hm.isPivot p hp).congr (h.value_eq (hs p.2 (hm.before p hp).2))

theorem Step.marked (h : Step mode w c s s') (hs : Settled c s) (hm : Marked mode c s) :
    Marked mode (c + 1) s' := by
  have hold := h.isPivot hs hm
  cases h with
  | exhausted _ =>
    refine ⟨fun p hp => ?_, hold, hm.increasing⟩
    have := hm.before p hp
    exact ⟨this.1, by omega⟩
  | skipped _ _ =>
    refine ⟨fun p hp => ?_, hold, hm.increasing⟩
    have := hm.before p hp
    simp only
    split <;> exact ⟨by omega, by omega⟩
  | pivoted k g hk hl hp hg =>
    refine ⟨fun p hp => ?_, fun p hp' => ?_, ?_⟩
    · rcases List.mem_append.mp hp with hp | hp
      · have := hm.before p hp
        exact ⟨by simp only; omega, by omega⟩
      · cases List.mem_singleton.mp hp
        exact ⟨Nat.lt_succ_self _, Nat.lt_succ_self _⟩
    · rcases List.mem_append.mp hp' with hp' | hp'
      · exact hold p hp'
      · cases List.mem_singleton.mp hp'
        exact isPivot_of_pivoted hk hl hp hg
    · refine List.pairwise_append.mpr ⟨hm.increasing, List.pairwise_singleton _ _, fun p hp q hq => ?_⟩
      cases List.mem_singleton.mp hq
      exact hm.before p hp

/-! ## The shape of the zeros -/

structure Echelon (s : Elimination) : Prop where
  length_pivots : s.pivots.length = s.row
  row_eq : ∀ (i : Nat) (p : Nat × Nat), s.pivots[i]? = some p → p.1 = i
  left : ∀ p ∈ s.pivots, ∀ j, j < p.2 → s.grid.value p.1 j = 0

theorem Step.echelon (h : Step mode w c s s') (hd : mode.diagonal = false) (hs : Settled c s)
    (hm : Marked mode c s) (he : Echelon s) : Echelon s' := by
  have hold : ∀ p ∈ s.pivots, ∀ j, j < p.2 → s'.grid.value p.1 j = 0 := fun p hp j hj => by
    rw [h.value_eq (hs j (hj.trans (hm.before p hp).2))]
    exact he.left p hp j hj
  cases h with
  | exhausted _ => exact he
  | skipped _ _ => exact ⟨by simpa [hd] using he.length_pivots, he.row_eq, he.left⟩
  | pivoted k g hk hl hp hg =>
    refine ⟨by simp [he.length_pivots], fun i p hp => ?_, fun p hp => ?_⟩
    · rcases Nat.lt_or_ge i s.pivots.length with hi | hi
      · rw [List.getElem?_append_left hi] at hp
        exact he.row_eq i p hp
      · rw [List.getElem?_append_right hi, List.getElem?_singleton] at hp
        split at hp
        · cases hp; have := he.length_pivots; simp only; omega
        · cases hp
    · rcases List.mem_append.mp hp with hp | hp
      · exact hold p hp
      · cases List.mem_singleton.mp hp
        intro j hj
        -- the columns before `c` are settled, so the step left them alone
        have hv := (Step.pivoted k g hk hl ‹_› hg).value_eq (hs j hj) s.row
        exact hv.trans (hs j hj s.row (Nat.le_refl _))

structure Triangular (c : Nat) (s : Elimination) : Prop where
  row_eq : s.row = min c s.grid.length
  diagonal : ∀ p ∈ s.pivots, p.1 = p.2
  below : ∀ i j, j < i → j < c → s.grid.value i j = 0

theorem Step.triangular (h : Step mode w c s s') (hd : mode.diagonal = true) (hs : Settled c s)
    (ht : Triangular c s) : Triangular (c + 1) s' := by
  have hrow := ht.row_eq
  have hbelow : ∀ i j, j < i → j < c + 1 → s'.grid.value i j = 0 := by
    intro i j hi hj
    rcases Nat.lt_succ_iff_lt_or_eq.mp hj with hj | rfl
    · rw [h.value_eq (hs j hj)]
      exact ht.below i j hi hj
    -- the step went on to row `j + 1`, unless the rows were used up
    · rcases Nat.lt_or_ge i s'.grid.length with hl | hl
      · have hlen := h.length_eq
        refine h.settled hs j (Nat.lt_succ_self j) i ?_
        cases h with
        | exhausted h => omega
        | skipped h _ => simp only [hd, ite_true]; omega
        | pivoted k g hk hl' _ _ => simp only; omega
      · exact value_of_length_le hl j
  have hlen := h.length_eq
  cases h with
  | exhausted h => exact ⟨by omega, ht.diagonal, hbelow⟩
  | skipped h _ => exact ⟨by simp only [hd, ite_true]; omega, ht.diagonal, hbelow⟩
  | pivoted k g hk hl _ _ =>
    refine ⟨by simp only at hlen ⊢; omega, fun p hp => ?_, hbelow⟩
    rcases List.mem_append.mp hp with hp | hp
    · exact ht.diagonal p hp
    · cases List.mem_singleton.mp hp
      simp only; omega

/-! ## The whole pass -/

/-- What holds after the steps for the first `c` columns. -/
structure Reached (mode : Mode) (start : Grid) (w c : Nat) (s : Elimination) : Prop where
  length : s.grid.length = start.length
  rectangular : s.grid.Rectangular w
  row_le : s.row ≤ s.grid.length
  transformed : Transformed mode start s
  settled : Settled c s
  marked : Marked mode c s
  echelon : mode.diagonal = false → Echelon s
  triangular : mode.diagonal = true → Triangular c s

theorem reached_start (hg : start.Rectangular w) : Reached mode start w 0 ⟨start, 0, [], 0⟩ where
  length := rfl
  rectangular := hg
  row_le := Nat.zero_le _
  transformed := transformed_start mode start
  settled j hj := absurd hj (Nat.not_lt_zero j)
  marked := ⟨by simp, by simp, List.Pairwise.nil⟩
  echelon _ := ⟨rfl, by simp, by simp⟩
  triangular _ := ⟨(Nat.zero_min _).symm, by simp, fun _ j _ hj => absurd hj (Nat.not_lt_zero j)⟩

theorem Step.reached (h : Step mode w c s s') (hs : Reached mode start w c s) :
    Reached mode start w (c + 1) s' where
  length := h.length_eq.trans hs.length
  rectangular := h.rectangular hs.rectangular
  row_le := h.row_le hs.row_le
  transformed := h.transformed hs.length hs.transformed
  settled := h.settled hs.settled
  marked := h.marked hs.settled hs.marked
  echelon hd := h.echelon hd hs.settled hs.marked (hs.echelon hd)
  triangular hd := h.triangular hd hs.settled (hs.triangular hd)

theorem reached_of_eliminate {cols : Nat} {e : Elimination} (hg : start.Rectangular w)
    (h : eliminate start cols mode = .ok e) : Reached mode start w cols e :=
  foldlM_range_ok (Reached mode start w) (reached_start hg)
    (fun _ _ _ _ hs hstep => (step_eq_ok hs.rectangular hstep).reached hs) h

theorem eliminate_error {cols : Nat} {e : ArithmeticError} (h : eliminate start cols mode = .error e) :
    e = .overflow := by
  obtain ⟨_, _, _, -, h⟩ := foldlM_range_error (fun _ _ => True) trivial (fun _ _ _ _ _ _ => trivial) h
  exact step_error h

/-- What is left of a grid of width `w` after eliminating with pivots from its first `cols` columns. -/
structure RowReduced (mode : Mode) (start : Grid) (w cols : Nat) (e : Elimination) : Prop where
  height : e.grid.length = start.length
  rectangular : e.grid.Rectangular w
  product : ∃ P : Matrix (Fin start.length) (Fin start.length) ℚ, IsUnit P ∧
    (mode.normalize = false → P.det = (-1) ^ e.swaps) ∧
    e.grid.toMatrix start.length w = P * start.toMatrix start.length w
  increasing : e.pivots.Pairwise fun p q => p.1 < q.1 ∧ p.2 < q.2
  inside : ∀ p ∈ e.pivots, p.1 < start.length ∧ p.2 < w ∧ p.2 < cols
  isPivot : ∀ p ∈ e.pivots, IsPivot mode e.grid p.1 p.2
  echelon : mode.diagonal = false →
    (∀ (i : Nat) (p : Nat × Nat), e.pivots[i]? = some p →
      p.1 = i ∧ ∀ j, j < p.2 → e.grid.value i j = 0) ∧
    ∀ i j, e.pivots.length ≤ i → j < cols → e.grid.value i j = 0
  triangular : mode.diagonal = true →
    (∀ p ∈ e.pivots, p.1 = p.2) ∧ ∀ i j, j < i → j < cols → e.grid.value i j = 0

theorem Reached.inside (h : Reached mode start w c s) :
    ∀ p ∈ s.pivots, p.1 < start.length ∧ p.2 < w ∧ p.2 < c := by
  intro p hp
  obtain ⟨hrow, hcol⟩ := h.marked.before p hp
  have hlen := h.length
  have hle := h.row_le
  refine ⟨by omega, ?_, hcol⟩
  by_contra hw
  exact (h.marked.isPivot p hp).ne_zero (value_of_width_le h.rectangular (Nat.not_lt.mp hw) p.1)

theorem Reached.rowReduced (h : Reached mode start w c s) : RowReduced mode start w c s where
  height := h.length
  rectangular := h.rectangular
  product := by
    obtain ⟨P, hu, hd, hP⟩ := h.transformed
    exact ⟨P, hu, hd, toMatrix_eq_mul hP w⟩
  increasing := h.marked.increasing
  inside := h.inside
  isPivot := h.marked.isPivot
  echelon hd := by
    have he := h.echelon hd
    refine ⟨fun i p hp => ?_, fun i j hi hj => ?_⟩
    · have hi := he.row_eq i p hp
      exact ⟨hi, hi ▸ he.left p (List.mem_of_getElem? hp)⟩
    · exact h.settled j hj i (he.length_pivots ▸ hi)
  triangular hd := ⟨(h.triangular hd).diagonal, (h.triangular hd).below⟩

theorem eliminate_sound {cols : Nat} {e : Elimination} (hg : start.Rectangular w)
    (h : eliminate start cols mode = .ok e) : RowReduced mode start w cols e :=
  (reached_of_eliminate hg h).rowReduced

/-- Three rows of rank two whose first pivot has to be swapped in. -/
theorem eliminate_sound_of_rank_two :
    Rectangular [[0, 1, 1], [1, 0, 1], [1, 1, .ofInt64 2]] 3 ∧
    eliminate [[0, 1, 1], [1, 0, 1], [1, 1, .ofInt64 2]] 3 ⟨false, true, false⟩ =
      .ok ⟨[[1, 0, 1], [0, 1, 1], [0, 0, 0]], 2, [(0, 0), (1, 1)], 1⟩ ∧
    RowReduced ⟨false, true, false⟩ [[0, 1, 1], [1, 0, 1], [1, 1, .ofInt64 2]] 3 3
      ⟨[[1, 0, 1], [0, 1, 1], [0, 0, 0]], 2, [(0, 0), (1, 1)], 1⟩ := by
  have hg : Rectangular [[0, 1, 1], [1, 0, 1], [1, 1, .ofInt64 2]] 3 := by simp [Rectangular]
  have h : eliminate [[0, 1, 1], [1, 0, 1], [1, 1, .ofInt64 2]] 3 ⟨false, true, false⟩ =
      .ok ⟨[[1, 0, 1], [0, 1, 1], [0, 0, 0]], 2, [(0, 0), (1, 1)], 1⟩ := by decide +kernel
  exact ⟨hg, h, eliminate_sound hg h⟩

end Elimination

end MatrixScript
