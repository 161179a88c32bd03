import Mathlib.Data.List.GetD
import Mathlib.Logic.Equiv.Basic
import MatrixScript.Elimination
import MatrixScript.Proofs.Rationals
import MatrixScript.Proofs.Results

/-!
# Grids as tables of rational numbers

`Grid.value` reads the entries of a grid as rational numbers, with zero outside the grid.  Each row
operation is described by the values it leaves.
-/

namespace MatrixScript

namespace Grid

def Rectangular (g : Grid) (w : Nat) : Prop := ∀ row ∈ g, row.length = w

def rowValue (row : List Fraction) (j : Nat) : ℚ := (row.getD j 0).toRat

def value (g : Grid) (i j : Nat) : ℚ := (g.entry i j).toRat

theorem value_eq_rowValue (g : Grid) (i j : Nat) : g.value i j = rowValue (g.getD i []) j := rfl

theorem rowValue_eq_getElem {row : List Fraction} {j : Nat} (h : j < row.length) :
    rowValue row j = row[j].toRat := by
  rw [rowValue, List.getD_eq_getElem _ _ h]

theorem value_eq_getElem {g : Grid} {i : Nat} (h : i < g.length) (j : Nat) :
    g.value i j = rowValue g[i] j := by
  rw [value_eq_rowValue, List.getD_eq_getElem _ _ h]

theorem rowValue_of_length_le {row : List Fraction} {j : Nat} (h : row.length ≤ j) :
    rowValue row j = 0 := by
  rw [rowValue, List.getD_eq_default _ _ h, Fraction.toRat_zero]

@[simp] theorem rowValue_nil (j : Nat) : rowValue [] j = 0 := rowValue_of_length_le (Nat.zero_le j)

@[simp] theorem rowValue_cons_zero (x : Fraction) (row : List Fraction) :
    rowValue (x :: row) 0 = x.toRat := rfl

@[simp] theorem rowValue_cons_succ (x : Fraction) (row : List Fraction) (j : Nat) :
    rowValue (x :: row) (j + 1) = rowValue row j := rfl

theorem value_of_length_le {g : Grid} {i : Nat} (h : g.length ≤ i) (j : Nat) : g.value i j = 0 := by
  rw [value_eq_rowValue, List.getD_eq_default _ _ h, rowValue_nil]

theorem lt_length_of_value_ne_zero {g : Grid} {i j : Nat} (h : g.value i j ≠ 0) : i < g.length := by
  rcases Nat.lt_or_ge i g.length with hi | hi
  · exact hi
  · exact absurd (value_of_length_le hi j) h

theorem length_getD {g : Grid} {w i : Nat} (hg : g.Rectangular w) (hi : i < g.length) :
    (g.getD i []).length = w := by
  rw [List.getD_eq_getElem _ _ hi]; exact hg _ (List.getElem_mem hi)

theorem getD_of_mem_zipIdx {g : Grid} {row : List Fraction} {i : Nat} (h : (row, i) ∈ g.zipIdx) :
    g.getD i [] = row := by
  rw [List.getD_eq_getElem?_getD, List.mk_mem_zipIdx_iff_getElem?.mp h, Option.getD_some]

theorem value_of_width_le {g : Grid} {w j : Nat} (hg : g.Rectangular w) (h : w ≤ j) (i : Nat) :
    g.value i j = 0 := by
  rcases Nat.lt_or_ge i g.length with hi | hi
  · exact rowValue_of_length_le ((length_getD hg hi).le.trans h)
  · exact value_of_length_le hi j

theorem isZero_entry_iff {g : Grid} {i j : Nat} : (g.entry i j).isZero = true ↔ g.value i j = 0 :=
  Fraction.isZero_iff

/-! ## Swapping rows -/

section
variable {g : Grid} {r k : Nat}

theorem length_swap (g : Grid) (r k : Nat) : (g.swap r k).length = g.length := by
  simp [swap]

theorem getD_swap (hr : r < g.length) (hk : k < g.length) (i : Nat) :
    (g.swap r k).getD i [] = g.getD (Equiv.swap r k i) [] := by
  rw [swap, Equiv.swap_apply_def]
  simp only [List.getD_eq_getElem?_getD, List.getElem?_set, List.length_set]
  by_cases hik : i = k
  · subst hik
    by_cases hir : i = r
    · simp [hir, hr]
    · simp [hir, hk]
  · by_cases hir : i = r
    · simp [hir, hr, show k ≠ r from fun h => hik (hir.trans h.symm)]
    · simp [hir, hik, Ne.symm hik, Ne.symm hir]

theorem value_swap (hr : r < g.length) (hk : k < g.length) (i j : Nat) :
    (g.swap r k).value i j = g.value (Equiv.swap r k i) j := by
  rw [value_eq_rowValue, value_eq_rowValue, getD_swap hr hk]

theorem value_swap_left (hr : r < g.length) (hk : k < g.length) (j : Nat) :
    (g.swap r k).value r j = g.value k j := by
  rw [value_swap hr hk, Equiv.swap_apply_left]

theorem value_swap_ne_zero (hrk : r ≤ k) (hk : k < g.length) {j : Nat} (h : g.value k j ≠ 0) :
    (g.swap r k).value r j ≠ 0 := by
  rwa [value_swap_left (lt_of_le_of_lt hrk hk) hk]

theorem Rectangular.swap {w : Nat} (hg : g.Rectangular w) (hr : r < g.length) (hk : k < g.length) :
    (g.swap r k).Rectangular w := by
  intro row hrow
  rw [Grid.swap] at hrow
  rcases List.mem_or_eq_of_mem_set hrow with h | rfl
  · rcases List.mem_or_eq_of_mem_set h with h | rfl
    · exact hg row h
    · exact length_getD hg hk
  · exact length_getD hg hr

end

/-! ## Operations on one row -/

section
variable {xs ps ys : List Fraction} {f : Fraction}

theorem length_subtractMultiple (h : subtractMultiple f xs ps = .ok ys) :
    ys.length = xs.length := by
  induction xs generalizing ps ys with
  | nil => cases ps <;> cases h <;> rfl
  | cons x xs ih =>
    cases ps with
    | nil => cases h; rfl
    | cons p ps =>
      simp only [subtractMultiple, bind_eq_ok_iff] at h
      obtain ⟨_, -, _, -, zs, hz, h⟩ := h
      cases h
      simp [ih hz]

theorem rowValue_subtractMultiple (h : subtractMultiple f xs ps = .ok ys)
    (hl : ps.length ≤ xs.length) (j : Nat) :
    rowValue ys j = rowValue xs j - f.toRat * rowValue ps j := by
  induction xs generalizing ps ys j with
  | nil =>
    cases ps with
    | nil => cases h; simp
    | cons p ps => simp at hl
  | cons x xs ih =>
    cases ps with
    | nil => cases h; simp
    | cons p ps =>
      simp only [subtractMultiple, bind_eq_ok_iff] at h
      obtain ⟨q, hq, y, hy, zs, hz, h⟩ := h
      cases h
      cases j with
      | zero =>
        rw [Fraction.mul_eq_ok_iff] at hq
        rw [Fraction.sub_eq_ok_iff, hq] at hy
        simpa using hy
      | succ j => simpa using ih hz (by simpa using hl) j

theorem subtractMultiple_error {e : ArithmeticError} (h : subtractMultiple f xs ps = .error e) :
    e = .overflow := by
  induction xs generalizing ps with
  | nil => cases ps <;> cases h
  | cons x xs ih =>
    cases ps with
    | nil => cases h
    | cons p ps =>
      simp only [subtractMultiple, bind_eq_error_iff] at h
      rcases h with h | ⟨_, -, h | ⟨_, -, h | ⟨_, -, h⟩⟩⟩
      · exact Fraction.mul_error h
      · exact Fraction.sub_error h
      · exact ih h
      · cases h

theorem rowValue_of_forall₂_div (h : List.Forall₂ (fun x y => x.div f = .ok y) xs ys) (j : Nat) :
    rowValue ys j = rowValue xs j / f.toRat := by
  induction h generalizing j with
  | nil => simp
  | cons hxy _ ih =>
    cases j with
    | zero => simpa using (Fraction.div_eq_ok_iff.mp hxy).2
    | succ j => simpa using ih j

end

end Grid

end MatrixScript
