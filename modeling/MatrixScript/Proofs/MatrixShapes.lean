import MatrixScript.Builtin
import MatrixScript.Proofs.InverseSound

/-!
# Shapes of computed matrices

Operations on matrices hand the rows they compute to `RatMatrix.ofRows`, which could refuse them.  It
never does: what is computed has the rows and columns that the operation is for.
-/

namespace MatrixScript

namespace Grid

variable {g h p : Grid} {w : Nat}

theorem forall_length_mapM {α β : Type} {f : α → Except ArithmeticError (List β)} {xs : List α}
    {ys : List (List β)} (hf : ∀ x ∈ xs, ∀ y, f x = .ok y → y.length = w)
    (h : xs.mapM f = .ok ys) : ∀ y ∈ ys, y.length = w := by
  intro y hy
  obtain ⟨i, hi, rfl⟩ := List.mem_iff_getElem.mp hy
  have hi' : i < xs.length := length_mapM h ▸ hi
  exact hf _ (List.getElem_mem hi') _ (getElem_mapM h hi' hi)

theorem rectangular_mapEntries {f : Fraction → Except ArithmeticError Fraction}
    (hg : g.Rectangular w) (hp : g.mapEntries f = .ok p) : p.Rectangular w :=
  forall_length_mapM (fun row hrow _ h => (length_mapM h).trans (hg row hrow)) hp

theorem rectangular_zipEntries {f : Fraction → Fraction → Except ArithmeticError Fraction}
    (hg : g.Rectangular w) (hh : h.Rectangular w) (hp : g.zipEntries f h = .ok p) :
    p.Rectangular w := by
  refine forall_length_mapM (fun q hq y hy => ?_) hp
  obtain ⟨hr, hs⟩ := List.of_mem_zip (show (q.1, q.2) ∈ g.zip h from hq)
  rw [length_mapM hy, List.length_zip, hg _ hr, hh _ hs, Nat.min_self]

theorem rectangular_mul (hp : g.mul h = .ok p) : p.Rectangular h.width :=
  forall_length_mapM (fun _ _ _ h => by rw [length_mapM h, List.length_range]) hp

end Grid

namespace MatrixError

def Refuses : MatrixError → Prop
  | .empty | .ragged _ _ _ => True
  | .shapeMismatch _ _ _ | .notSquare _ _ | .singular | .arithmetic _ => False

end MatrixError

def Accepted {α : Type} (result : Except MatrixError α) : Prop :=
  ∀ e, result = .error e → ¬ e.Refuses

theorem accepted_ok {α : Type} (x : α) : Accepted (.ok x) := by
  intro e h
  cases h

theorem accepted_error {α : Type} {e : MatrixError} (h : ¬ e.Refuses) :
    Accepted (.error e : Except MatrixError α) := by
  intro e' he
  cases he
  exact h

theorem Accepted.bind {α β : Type} {x : Except MatrixError α} {f : α → Except MatrixError β}
    (hx : Accepted x) (hf : ∀ a, x = .ok a → Accepted (f a)) : Accepted (x >>= f) := by
  intro e h
  rcases bind_eq_error_iff.mp h with h | ⟨a, ha, h⟩
  · exact hx e h
  · exact hf a ha e h

theorem Accepted.map {α β : Type} {x : Except MatrixError α} (hx : Accepted x) (f : α → β) :
    Accepted (f <$> x) := by
  intro e h
  exact hx e (map_eq_error_iff.mp h)

theorem accepted_arithmetic {α : Type} (x : Except ArithmeticError α) :
    Accepted (x.mapError .arithmetic) := by
  cases x with
  | ok a => exact accepted_ok a
  | error e => exact accepted_error not_false

namespace RatMatrix

open Grid

variable {m n : RatMatrix}

theorem accepted_ofRows {g : Grid} {w : Nat} (hg : g.Rectangular w) (hpos : 0 < g.length)
    (hw : 0 < w) : Accepted (ofRows g) := by
  obtain ⟨m, hm⟩ := ofRows_of_rectangular hg hpos hw
  rw [hm]
  exact accepted_ok m

theorem accepted_ofResult {result : Except ArithmeticError Grid} {w : Nat} (hw : 0 < w)
    (h : ∀ g, result = .ok g → g.Rectangular w ∧ 0 < g.length) : Accepted (ofResult result) := by
  refine (accepted_arithmetic result).bind fun g hg => ?_
  obtain ⟨hrect, hpos⟩ := h g (mapError_eq_ok_iff.mp hg)
  exact accepted_ofRows hrect hpos hw

/-! ## Arithmetic -/

theorem accepted_zipEntries (h : m.shape = n.shape)
    (f : Fraction → Fraction → Except ArithmeticError Fraction) :
    Accepted (ofResult (m.rows.zipEntries f n.rows)) := by
  obtain ⟨hheight, hwidth⟩ := Prod.mk.inj h
  refine accepted_ofResult m.width_pos fun g hg => ?_
  have hn : n.rows.Rectangular m.rows.width := fun row hrow =>
    (n.rectangular row hrow).trans hwidth.symm
  refine ⟨rectangular_zipEntries m.rectangular hn hg, ?_⟩
  have hlen : g.length = min m.height n.height := (length_mapM hg).trans List.length_zip
  rw [hlen, ← hheight, Nat.min_self]
  exact m.height_pos

theorem accepted_mapEntries (m : RatMatrix) (f : Fraction → Except ArithmeticError Fraction) :
    Accepted (ofResult (m.rows.mapEntries f)) :=
  accepted_ofResult m.width_pos fun _ hg =>
    ⟨rectangular_mapEntries m.rectangular hg, length_mapM hg ▸ m.height_pos⟩

theorem accepted_add : Accepted (m.add n) := by
  unfold add
  split
  · next h => exact accepted_zipEntries h _
  · exact accepted_error not_false

theorem accepted_sub : Accepted (m.sub n) := by
  unfold sub
  split
  · next h => exact accepted_zipEntries h _
  · exact accepted_error not_false

theorem accepted_mul : Accepted (m.mul n) := by
  unfold mul
  split
  · exact accepted_ofResult n.width_pos fun g hg =>
      ⟨rectangular_mul hg, length_mapM hg ▸ m.height_pos⟩
  · exact accepted_error not_false

/-! ## Reductions -/

theorem accepted_run (r : Reduction) (m : RatMatrix) : Accepted (r.run m) := by
  unfold Reduction.run
  split
  · exact accepted_error not_false
  · exact accepted_arithmetic _

/-- The rows after an elimination that started with the matrix itself. -/
theorem accepted_eliminated {r : Reduction} {e : Elimination} (hstart : r.start m = m.rows)
    (h : r.run m = .ok e) : Accepted (ofRows e.grid) := by
  obtain ⟨-, he⟩ := Reduction.run_eq_ok h
  rw [hstart] at he
  have hr := Elimination.reached_of_eliminate m.rectangular he
  exact accepted_ofRows hr.rectangular (hr.length.symm ▸ m.height_pos) m.width_pos

theorem accepted_inverse (m : RatMatrix) : Accepted m.inverse := by
  refine (accepted_run .inverse m).bind fun e he => ?_
  split
  · exact accepted_error not_false
  · have hs := (Reduction.run_eq_ok he).1 rfl
    have hr := reached_inverse hs he
    refine accepted_ofRows (w := m.height) ?_ ?_ m.height_pos
    · rw [width_eq_height hs]
      exact rectangular_map_drop hr.rectangular
    · rw [List.length_map, hr.length, length_start_inverse hs]
      exact m.height_pos

end RatMatrix

theorem Reduction.accepted_apply (r : Reduction) (m : RatMatrix) : Accepted (r.apply m) := by
  have hrun : ∀ r : Reduction, Accepted (r.run m) := fun r => RatMatrix.accepted_run r m
  cases r with
  | rref => exact ((hrun _).bind fun e he => RatMatrix.accepted_eliminated rfl he).map _
  | toDiagonal => exact ((hrun _).bind fun e he => RatMatrix.accepted_eliminated rfl he).map _
  | toTriangle => exact ((hrun _).bind fun e he => RatMatrix.accepted_eliminated rfl he).map _
  | inverse => exact (RatMatrix.accepted_inverse m).map _
  | determinant =>
    refine ((hrun _).bind fun e _ => ?_).map _
    split
    · exact accepted_ok _
    · exact accepted_arithmetic _
  | rank => exact ((hrun _).bind fun e _ => accepted_ok _).map _

/-! ## Operators -/

theorem BinaryOp.accepted_onValues {op : BinaryOp} {x y : Value}
    {result : Except MatrixError Value} (h : op.onValues? x y = some result) : Accepted result := by
  unfold onValues? at h
  split at h
  · cases h
    exact RatMatrix.accepted_add.map _
  · cases h
    exact RatMatrix.accepted_sub.map _
  · cases h
    exact RatMatrix.accepted_mul.map _
  · obtain ⟨factor, -, rfl⟩ := Option.map_eq_some_iff.mp h
    exact (RatMatrix.accepted_mapEntries _ _).map _
  · obtain ⟨factor, -, rfl⟩ := Option.map_eq_some_iff.mp h
    exact (RatMatrix.accepted_mapEntries _ _).map _
  · obtain ⟨divisor, -, rfl⟩ := Option.map_eq_some_iff.mp h
    exact (RatMatrix.accepted_mapEntries _ _).map _
  · split at h
    · cases h
      exact (accepted_arithmetic _).map _
    · cases h

theorem Value.accepted_neg {x : Value} {result : Except MatrixError Value}
    (h : x.neg? = some result) : Accepted result := by
  cases x with
  | integer n =>
    cases h
    exact (accepted_arithmetic _).map _
  | rational r =>
    cases h
    exact (accepted_arithmetic _).map _
  | matrix m =>
    cases h
    exact (RatMatrix.accepted_mapEntries m _).map _
  | symbol name => cases h
  | unit => cases h

end MatrixScript
