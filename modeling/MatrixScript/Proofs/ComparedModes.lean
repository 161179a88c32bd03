import MatrixScript.Proofs.EliminationSound
import MatrixScript.Proofs.FinishedColumns

/-!
# Eliminations in two modes

The rows from the current one on do not depend on what is done to the rows above, nor on dividing a
pivot row once it has been used.  So two modes that look for pivots alike find the same ones, as far
as both get.  Clearing the rows above can overflow, though, where it would not with divided rows.
-/

namespace MatrixScript

/-! ## Grids with the same last rows -/

namespace Grid

structure SameFrom (r : Nat) (g h : Grid) : Prop where
  length : g.length = h.length
  row : ∀ i, r ≤ i → g.getD i [] = h.getD i []

variable {g h : Grid} {r i : Nat}

theorem SameFrom.refl (r : Nat) (g : Grid) : SameFrom r g g := ⟨rfl, fun _ _ => rfl⟩

theorem SameFrom.mono {k : Nat} (hs : SameFrom r g h) (hk : r ≤ k) : SameFrom k g h :=
  ⟨hs.length, fun i hi => hs.row i (hk.trans hi)⟩

theorem SameFrom.entry_eq (hs : SameFrom r g h) (hi : r ≤ i) (j : Nat) :
    g.entry i j = h.entry i j := by
  rw [entry, entry, hs.row i hi]

theorem SameFrom.swap {k : Nat} (hs : SameFrom r g h) (hk : r ≤ k) (hl : k < g.length) :
    SameFrom r (g.swap r k) (h.swap r k) := by
  have hr : r < g.length := lt_of_le_of_lt hk hl
  refine ⟨?_, fun i hi => ?_⟩
  · rw [length_swap, length_swap, hs.length]
  · rw [getD_swap hr hl, getD_swap (hs.length ▸ hr) (hs.length ▸ hl)]
    apply hs.row
    rw [Equiv.swap_apply_def]
    split
    · exact hk
    · split
      · exact Nat.le_refl r
      · exact hi

end Grid

/-- What the first mode does the second one does too, and pivots are looked for in the same way. -/
structure Mode.Within (mode mode' : Mode) : Prop where
  normalize : mode.normalize = true → mode'.normalize = true
  above : mode.above = true → mode'.above = true
  diagonal : mode.diagonal = mode'.diagonal

theorem Mode.Within.cases {mode mode' : Mode} (hm : mode.Within mode') :
    mode = mode' ∨ mode.above = false ∨
      (mode.above = true ∧ mode.normalize = false ∧ mode'.normalize = true) := by
  obtain ⟨n, a, d⟩ := mode
  obtain ⟨n', a', d'⟩ := mode'
  obtain ⟨hn, ha, hd⟩ := hm
  cases a with
  | false => exact Or.inr (Or.inl rfl)
  | true =>
    cases n with
    | false => cases n' <;> simp_all
    | true => simp_all

namespace Elimination

open Grid

/-! ## One step in two modes -/

section
variable {g h x y : Grid} {r c : Nat} {above above' : Bool}

theorem pivotRow?_congr (hs : SameFrom r g h) : pivotRow? g r c = pivotRow? h r c := by
  rw [pivotRow?, pivotRow?, hs.length]
  refine List.find?_congr fun k hk => ?_
  rw [hs.entry_eq (List.mem_range'_1.mp hk).1]

/-- What clearing makes of a row from the pivot row on, which does not depend on the mode. -/
theorem clearColumn_lower (hx : clearColumn above g r c = .ok x) {i : Nat} (hi : r ≤ i)
    (hl : i < g.length) :
    (if i = r ∨ ((g.getD i []).getD c 0).isZero then pure (g.getD i [])
      else clearRow (g.getD r []) c (g.getD i [])) = .ok (x.getD i []) := by
  have hrow := getD_clearColumn hx hl
  simpa only [Nat.not_lt.mpr hi, false_and, false_or] using hrow

theorem sameFrom_clearColumn (hs : SameFrom r g h) (hx : clearColumn above g r c = .ok x)
    (hy : clearColumn above' h r c = .ok y) : SameFrom r x y := by
  have hlen := length_clearColumn hx
  have hlen' := length_clearColumn hy
  refine ⟨hlen.trans (hs.length.trans hlen'.symm), fun i hi => ?_⟩
  rcases Nat.lt_or_ge i g.length with hl | hl
  · have hrow := clearColumn_lower hx hi hl
    rw [hs.row i hi, hs.row r (Nat.le_refl r), clearColumn_lower hy hi (hs.length ▸ hl)] at hrow
    exact (Except.ok.inj hrow).symm
  · rw [List.getD_eq_default _ _ (hlen ▸ hl), List.getD_eq_default _ _ (hlen' ▸ hs.length ▸ hl)]

/-- Clearing the rows below only succeeds where clearing succeeds in any mode. -/
theorem exists_clearColumn_lower (hs : SameFrom r g h)
    (hy : clearColumn above h r c = .ok y) : ∃ x, clearColumn false g r c = .ok x := by
  refine exists_mapM_eq_ok fun ⟨row, i⟩ hmem => ?_
  have hl : i < g.length := List.snd_lt_of_mem_zipIdx hmem
  rcases Nat.lt_or_ge i r with hi | hi
  · exact ⟨row, if_pos (Or.inr (Or.inl ⟨hi, Bool.false_ne_true⟩))⟩
  · have hrow := clearColumn_lower hy hi (hs.length ▸ hl)
    rw [← hs.row i hi, ← hs.row r (Nat.le_refl r), getD_of_mem_zipIdx hmem] at hrow
    refine ⟨y.getD i [], ?_⟩
    simpa only [Nat.not_lt.mpr hi, false_and, false_or] using hrow

end

/-! ## Dividing the pivot row or not -/

section
variable {g g' h h' : Grid} {r : Nat} {d d' : Fraction} {n n' : Bool}

theorem rows_of_finish (hf : (if n then g.divideRow r d else pure g) = .ok g') :
    g'.length = g.length ∧ ∀ i, i ≠ r → g'.getD i [] = g.getD i [] := by
  split at hf
  · obtain ⟨row, -, rfl⟩ := divideRow_eq_ok hf
    refine ⟨List.length_set, fun i hi => ?_⟩
    rw [List.getD_eq_getElem?_getD, List.getElem?_set_ne (Ne.symm hi), ← List.getD_eq_getElem?_getD]
  · cases hf
    exact ⟨rfl, fun i _ => rfl⟩

theorem sameFrom_finish (hs : SameFrom r g h)
    (hg : (if n then g.divideRow r d else pure g) = .ok g')
    (hh : (if n' then h.divideRow r d' else pure h) = .ok h') : SameFrom (r + 1) g' h' := by
  obtain ⟨hlen, hrow⟩ := rows_of_finish hg
  obtain ⟨hlen', hrow'⟩ := rows_of_finish hh
  refine ⟨hlen.trans (hs.length.trans hlen'.symm), fun i hi => ?_⟩
  rw [hrow i (by omega), hrow' i (by omega), hs.row i (by omega)]

theorem exists_finish (hs : SameFrom r g h) (hn : n = true → n' = true)
    (hh : (if n' then h.divideRow r d else pure h) = .ok h') :
    ∃ g', (if n then g.divideRow r d else pure g) = .ok g' := by
  by_cases hnorm : n = true
  · rw [if_pos (hn hnorm)] at hh
    obtain ⟨row, hrow, -⟩ := divideRow_eq_ok hh
    rw [← hs.row r (Nat.le_refl r)] at hrow
    refine ⟨g.set r row, ?_⟩
    rw [if_pos hnorm, Grid.divideRow, mapM_eq_ok_iff.mpr hrow]
    rfl
  · exact ⟨g, if_neg hnorm⟩

end

/-! ## Runs in two modes -/

structure Alongside (s t : Elimination) : Prop where
  rows : SameFrom s.row s.grid t.grid
  row : s.row = t.row
  pivots : s.pivots = t.pivots
  swaps : s.swaps = t.swaps

theorem Alongside.refl (s : Elimination) : Alongside s s := ⟨.refl s.row s.grid, rfl, rfl, rfl⟩

section
variable {mode mode' : Mode} {s s' t t' : Elimination} {c k : Nat}

theorem Alongside.pivotRow?_eq (h : Alongside s t) :
    pivotRow? t.grid t.row c = pivotRow? s.grid s.row c := by
  rw [← h.row, pivotRow?_congr h.rows]

theorem Alongside.lt_length (h : Alongside s t) (hr : s.row < s.grid.length) :
    t.row < t.grid.length := h.row ▸ h.rows.length ▸ hr

theorem Alongside.step_of_some (h : Alongside s t) (hr : s.row < s.grid.length)
    (hf : pivotRow? s.grid s.row c = some k) (hs : step mode s c = .ok s')
    (ht : step mode' t c = .ok t') : Alongside s' t' := by
  obtain ⟨hk, hl, -⟩ := pivotRow?_eq_some hf
  obtain ⟨x, hx, x', hx', rfl⟩ := (step_of_pivotRow?_eq_ok_iff hr hf).mp hs
  obtain ⟨y, hy, y', hy', rfl⟩ :=
    (step_of_pivotRow?_eq_ok_iff (h.lt_length hr) (h.pivotRow?_eq.trans hf)).mp ht
  rw [← h.row] at hy hy'
  have hclear := sameFrom_clearColumn (h.rows.swap hk hl) hx hy
  refine ⟨sameFrom_finish hclear hx' hy', ?_, ?_, ?_⟩
  · rw [h.row]
  · rw [h.row, h.pivots]
  · rw [h.row, h.swaps]

theorem Alongside.step (h : Alongside s t) (hd : mode.diagonal = mode'.diagonal)
    (hs : step mode s c = .ok s') (ht : step mode' t c = .ok t') : Alongside s' t' := by
  rcases Nat.lt_or_ge s.row s.grid.length with hr | hr
  · cases hf : pivotRow? s.grid s.row c with
    | none =>
      rw [step_of_pivotRow?_eq_none hr hf] at hs
      rw [step_of_pivotRow?_eq_none (h.lt_length hr) (h.pivotRow?_eq.trans hf)] at ht
      cases hs
      cases ht
      refine ⟨h.rows.mono ?_, ?_, h.pivots, h.swaps⟩
      · simp only; split <;> omega
      · simp only [hd, h.row]
    | some k => exact h.step_of_some hr hf hs ht
  · have hr' : t.grid.length ≤ t.row := h.row ▸ h.rows.length ▸ hr
    rw [step_of_length_le hr] at hs
    rw [step_of_length_le hr'] at ht
    cases hs
    cases ht
    exact h

/-- Where the rows above are left alone, a step does nothing that the other mode does not do. -/
theorem Alongside.exists_step (h : Alongside s t) (hm : mode.Within mode')
    (ha : mode.above = false) (ht : Elimination.step mode' t c = .ok t') :
    ∃ s', Elimination.step mode s c = .ok s' := by
  rcases Nat.lt_or_ge s.row s.grid.length with hr | hr
  · cases hf : pivotRow? s.grid s.row c with
    | none => exact ⟨_, step_of_pivotRow?_eq_none hr hf⟩
    | some k =>
      obtain ⟨hk, hl, -⟩ := pivotRow?_eq_some hf
      have hswap := h.rows.swap hk hl
      obtain ⟨y, hy, y', hy', -⟩ :=
        (step_of_pivotRow?_eq_ok_iff (h.lt_length hr) (h.pivotRow?_eq.trans hf)).mp ht
      rw [← h.row] at hy hy'
      obtain ⟨x, hx⟩ := exists_clearColumn_lower hswap hy
      rw [← hswap.entry_eq (Nat.le_refl s.row)] at hy'
      obtain ⟨x', hx'⟩ := exists_finish (sameFrom_clearColumn hswap hx hy) hm.normalize hy'
      rw [← ha] at hx
      exact ⟨_, (step_of_pivotRow?_eq_ok_iff hr hf).mpr ⟨x, hx, x', hx', rfl⟩⟩
  · exact ⟨s, step_of_length_le hr⟩

end

variable {mode mode' : Mode} {g : Grid} {cols : Nat} {e e' : Elimination}

theorem alongside_of_eliminate (hd : mode.diagonal = mode'.diagonal)
    (he : eliminate g cols mode = .ok e) (he' : eliminate g cols mode' = .ok e') :
    Alongside e e' := by
  induction cols generalizing e e' with
  | zero =>
    cases he
    cases he'
    exact .refl _
  | succ c ih =>
    rw [eliminate_succ, bind_eq_ok_iff] at he he'
    obtain ⟨s, hs, he⟩ := he
    obtain ⟨t, ht, he'⟩ := he'
    exact (ih hs ht).step hd he he'

theorem exists_eliminate_within (hm : mode.Within mode') (ha : mode.above = false)
    (he' : eliminate g cols mode' = .ok e') : ∃ e, eliminate g cols mode = .ok e := by
  induction cols generalizing e' with
  | zero => exact ⟨_, rfl⟩
  | succ c ih =>
    rw [eliminate_succ, bind_eq_ok_iff] at he'
    obtain ⟨t, ht, he'⟩ := he'
    obtain ⟨s, hs⟩ := ih ht
    obtain ⟨e, he⟩ := (alongside_of_eliminate hm.diagonal hs ht).exists_step hm ha he'
    exact ⟨e, by rw [eliminate_succ, hs]; exact he⟩

/-- Doing less finds the same pivots, or overflows where the rows above are cleared undivided. -/
theorem eliminate_within (hm : mode.Within mode') (he' : eliminate g cols mode' = .ok e') :
    (∃ e, eliminate g cols mode = .ok e ∧ e.pivots = e'.pivots ∧ e.swaps = e'.swaps) ∨
    (mode.above = true ∧ mode.normalize = false ∧ mode'.normalize = true ∧
      eliminate g cols mode = .error .overflow) := by
  have hfound : ∀ e, eliminate g cols mode = .ok e →
      ∃ e, eliminate g cols mode = .ok e ∧ e.pivots = e'.pivots ∧ e.swaps = e'.swaps :=
    fun e he =>
      have h := alongside_of_eliminate hm.diagonal he he'
      ⟨e, he, h.pivots, h.swaps⟩
  rcases hm.cases with rfl | ha | ⟨ha, hn, hn'⟩
  · exact Or.inl (hfound e' he')
  · obtain ⟨e, he⟩ := exists_eliminate_within hm ha he'
    exact Or.inl (hfound e he)
  · cases he : eliminate g cols mode with
    | ok e =>
      rw [← he]
      exact Or.inl (hfound e he)
    | error x => exact Or.inr ⟨ha, hn, hn', by rw [eliminate_error he]⟩

end Elimination

end MatrixScript
