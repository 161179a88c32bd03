import Mathlib.LinearAlgebra.Matrix.Echelon.Basic
import Mathlib.LinearAlgebra.Matrix.NonsingularInverse
import Mathlib.LinearAlgebra.Matrix.ToLin

/-!
# Row spaces and reduced echelon forms

Multiplying by an invertible matrix from the left keeps the row space.  A vector of the row space of
a reduced matrix is known from its entries in the leading columns, and it starts in one of them, so
a reduced matrix is known from its row space.
-/

namespace MatrixScript

open Matrix

variable {K : Type} [Field K] {m n : Nat}

def rowSpace (A : Matrix (Fin m) (Fin n) K) : Submodule K (Fin n → K) :=
  Submodule.span K (Set.range A.row)

theorem mem_rowSpace_iff {A : Matrix (Fin m) (Fin n) K} {v : Fin n → K} :
    v ∈ rowSpace A ↔ ∃ c, c ᵥ* A = v := by
  rw [rowSpace, ← range_vecMulLinear]
  rfl

theorem row_mem_rowSpace (A : Matrix (Fin m) (Fin n) K) (i : Fin m) : A i ∈ rowSpace A :=
  Submodule.subset_span ⟨i, rfl⟩

theorem rowSpace_mul {P : Matrix (Fin m) (Fin m) K} (hP : IsUnit P) (A : Matrix (Fin m) (Fin n) K) :
    rowSpace (P * A) = rowSpace A := by
  have hdet : IsUnit P.det := (isUnit_iff_isUnit_det P).mp hP
  ext v
  simp only [mem_rowSpace_iff]
  constructor
  · rintro ⟨c, rfl⟩
    exact ⟨c ᵥ* P, vecMul_vecMul c P A⟩
  · rintro ⟨c, rfl⟩
    refine ⟨c ᵥ* P⁻¹, ?_⟩
    rw [vecMul_vecMul, ← Matrix.mul_assoc, nonsing_inv_mul P hdet, Matrix.one_mul]

/-! ## Vectors of the row space of a reduced matrix -/

section
variable {A : Matrix (Fin m) (Fin n) K} (hA : A.IsReducedRowEchelon)
include hA

/-- The coefficient of a row is the entry in its leading column. -/
theorem vecMul_leading {i : Fin m} {j : Fin n} (h : A.IsLeadingEntry i j) (c : Fin m → K) :
    (c ᵥ* A) j = c i := by
  rw [vecMul, dotProduct, Finset.sum_eq_single i]
  · rw [hA.eq_one h, mul_one]
  · intro k _ hk
    rw [hA.eq_zero_of_ne_of_isLeadingEntry hk h, mul_zero]
  · intro hi
    exact absurd (Finset.mem_univ i) hi

theorem eq_zero_of_mem_rowSpace {v : Fin n → K} (hv : v ∈ rowSpace A)
    (hz : ∀ i j, A.IsLeadingEntry i j → v j = 0) : v = 0 := by
  obtain ⟨c, rfl⟩ := mem_rowSpace_iff.mp hv
  funext j
  rw [vecMul, dotProduct, Pi.zero_apply]
  refine Finset.sum_eq_zero fun i _ => ?_
  by_cases hi : A i = 0
  · rw [hi, Pi.zero_apply, mul_zero]
  · obtain ⟨k, hk⟩ := row_ne_zero_iff_exists_isLeadingEntry.mp hi
    rw [← vecMul_leading hA hk c, hz i k hk, zero_mul]

theorem exists_isLeadingEntry_of_mem_rowSpace {v : Fin n → K} (hv : v ∈ rowSpace A) {j : Fin n}
    (hj : v j ≠ 0) (hbefore : ∀ k < j, v k = 0) : ∃ i, A.IsLeadingEntry i j := by
  by_contra hnone
  obtain ⟨c, rfl⟩ := mem_rowSpace_iff.mp hv
  refine hj ?_
  rw [vecMul, dotProduct]
  refine Finset.sum_eq_zero fun i _ => ?_
  by_cases hi : A i = 0
  · rw [hi, Pi.zero_apply, mul_zero]
  · obtain ⟨k, hk⟩ := row_ne_zero_iff_exists_isLeadingEntry.mp hi
    rcases lt_trichotomy k j with hlt | rfl | hgt
    · rw [← vecMul_leading hA hk c, hbefore k hlt, zero_mul]
    · exact absurd ⟨i, hk⟩ hnone
    · rw [hk.1 j hgt, mul_zero]

end

/-! ## Two reduced matrices with one row space -/

theorem exists_isLeadingEntry_le {A : Matrix (Fin m) (Fin n) K} (hA : A.IsRowEchelon) {i k : Fin m}
    {j : Fin n} (hik : i ≤ k) (hk : A.IsLeadingEntry k j) : ∃ l ≤ j, A.IsLeadingEntry i l := by
  rcases hik.eq_or_lt with rfl | hlt
  · exact ⟨j, le_refl j, hk⟩
  · have hne : A i ≠ 0 := fun h => hk.row_ne_zero (hA.row_eq_zero_of_lt hlt h)
    obtain ⟨l, hl⟩ := row_ne_zero_iff_exists_isLeadingEntry.mp hne
    refine ⟨l, ?_, hl⟩
    by_contra hjl
    exact hk.2 (hA hlt fun p hp => hl.1 p (hp.trans (not_le.mp hjl)))

section
variable {A B : Matrix (Fin m) (Fin n) K} (hB : B.IsReducedRowEchelon)
  (h : rowSpace A = rowSpace B)
include hB h

theorem exists_isLeadingEntry_of_rowSpace_eq {i : Fin m} {j : Fin n} (hi : A.IsLeadingEntry i j) :
    ∃ k, B.IsLeadingEntry k j :=
  exists_isLeadingEntry_of_mem_rowSpace hB (h ▸ row_mem_rowSpace A i) hi.2 hi.1

variable (hA : A.IsReducedRowEchelon)
include hA

/-- If the rows above agree, the leading column of row `i` is not to the left of the other one's. -/
theorem exists_isLeadingEntry_le_of_above {i : Fin m} {j : Fin n} (hrows : ∀ k < i, A k = B k)
    (hi : A.IsLeadingEntry i j) : ∃ l ≤ j, B.IsLeadingEntry i l := by
  obtain ⟨k, hk⟩ := exists_isLeadingEntry_of_rowSpace_eq hB h hi
  refine exists_isLeadingEntry_le hB.isRowEchelon (not_lt.mp fun hlt => ?_) hk
  have hrow (l : Fin n) : A k l = B k l := congrFun (hrows k hlt) l
  have hk' : A.IsLeadingEntry k j :=
    ⟨fun l hl => (hrow l).trans (hk.1 l hl), fun hz => hk.2 ((hrow j).symm.trans hz)⟩
  exact hi.2 (hA.eq_zero_of_ne_of_isLeadingEntry hlt.ne' hk')

theorem row_eq_of_isLeadingEntry {i : Fin m} {j : Fin n} (hi : A.IsLeadingEntry i j)
    (hi' : B.IsLeadingEntry i j) : A i = B i := by
  have hmem : A i - B i ∈ rowSpace A :=
    Submodule.sub_mem _ (row_mem_rowSpace A i) (h ▸ row_mem_rowSpace B i)
  refine sub_eq_zero.mp (eq_zero_of_mem_rowSpace hA hmem fun k l hk => ?_)
  rw [Pi.sub_apply]
  by_cases hki : k = i
  · subst hki
    rw [hk.unique hi, hA.eq_one hi, hB.eq_one hi', sub_self]
  · -- `l` leads another row of either matrix
    have hlj : l ≠ j := fun hlj =>
      hi.2 (hA.eq_zero_of_ne_of_isLeadingEntry (Ne.symm hki) (hlj ▸ hk))
    obtain ⟨k', hk'⟩ := exists_isLeadingEntry_of_rowSpace_eq hB h hk
    have hne : i ≠ k' := fun hik => hlj ((hik ▸ hk').unique hi')
    rw [hA.eq_zero_of_ne_of_isLeadingEntry (Ne.symm hki) hk,
      hB.eq_zero_of_ne_of_isLeadingEntry hne hk', sub_self]

theorem eq_of_rowSpace_eq : A = B := by
  funext i
  induction i using WellFoundedLT.induction with
  | ind i ih =>
    by_cases hi : A i = 0
    · by_cases hi' : B i = 0
      · rw [hi, hi']
      · obtain ⟨j, hj⟩ := row_ne_zero_iff_exists_isLeadingEntry.mp hi'
        obtain ⟨l, -, hl⟩ :=
          exists_isLeadingEntry_le_of_above hA h.symm hB (fun k hk => (ih k hk).symm) hj
        exact absurd hi hl.row_ne_zero
    · obtain ⟨j, hj⟩ := row_ne_zero_iff_exists_isLeadingEntry.mp hi
      obtain ⟨l, hlj, hl⟩ := exists_isLeadingEntry_le_of_above hB h hA ih hj
      obtain ⟨k, hkl, hk⟩ :=
        exists_isLeadingEntry_le_of_above hA h.symm hB (fun k hk => (ih k hk).symm) hl
      have hjk : k = j := hk.unique hj
      have hjl : l = j := le_antisymm hlj (hjk ▸ hkl)
      exact row_eq_of_isLeadingEntry hB h hA hj (hjl ▸ hl)

end

end MatrixScript
