import Mathlib.Algebra.BigOperators.Fin
import Mathlib.Data.Finset.Max
import MatrixScript.Proofs.ExactArithmetic
import MatrixScript.Proofs.FullRank
import MatrixScript.Proofs.ProductSound

/-!
# Results that have to be representable

A computation with fractions succeeds exactly if every number that it computes on the way fits, and
overflows otherwise.  Computing a table of numbers is computing each of them.
-/

namespace MatrixScript

/-! ## Computations that succeed under a condition -/

section
variable {ε ε' α β : Type} {fits fits' : Prop} {Q : α → Prop} {Q' : β → Prop} {e : ε}

/-- The result is as wanted if the condition holds, and the error is `e` if it does not. -/
def OkIff (fits : Prop) (Q : α → Prop) (e : ε) : Except ε α → Prop
  | .ok a => fits ∧ Q a
  | .error e' => ¬ fits ∧ e' = e

namespace OkIff

variable {r : Except ε α}

theorem of_ok {a : α} (h : OkIff fits Q e r) (hr : r = .ok a) : fits ∧ Q a := by
  subst hr
  exact h

theorem of_error {e' : ε} (h : OkIff fits Q e r) (hr : r = .error e') : ¬ fits ∧ e' = e := by
  subst hr
  exact h

theorem congr (h : OkIff fits Q e r) (hfits : fits ↔ fits') : OkIff fits' Q e r := by
  rwa [propext hfits] at h

theorem mono {P : α → Prop} (h : OkIff fits Q e r) (hQ : ∀ a, Q a → P a) : OkIff fits P e r := by
  cases r with
  | ok a => exact ⟨h.1, hQ a h.2⟩
  | error e' => exact h

theorem map (h : OkIff fits Q e r) (f : α → β) (hQ : ∀ a, Q a → Q' (f a)) :
    OkIff fits Q' e (f <$> r) := by
  cases r with
  | ok a => exact ⟨h.1, hQ a h.2⟩
  | error e' => exact h

theorem mapError (h : OkIff fits Q e r) (f : ε → ε') : OkIff fits Q (f e) (r.mapError f) := by
  cases r with
  | ok a => exact h
  | error e' => exact ⟨h.1, congrArg f h.2⟩

theorem bind {k : α → Except ε β} (h : OkIff fits Q e r)
    (hk : ∀ a, Q a → OkIff fits' Q' e (k a)) : OkIff (fits ∧ fits') Q' e (r >>= k) := by
  cases r with
  | ok a =>
    obtain ⟨hfits, ha⟩ := h
    exact (hk a ha).congr (by simp [hfits])
  | error e' => exact ⟨fun hboth => h.1 hboth.1, h.2⟩

theorem mapM {f : α → Except ε β} {xs : List α} {n : Nat} {fits : Nat → Prop}
    {Q : Nat → β → Prop} (hn : xs.length = n)
    (h : ∀ i (hi : i < xs.length), OkIff (fits i) (Q i) e (f xs[i])) :
    OkIff (∀ i < n, fits i) (fun ys => ys.length = n ∧ ∀ i (hi : i < ys.length), Q i ys[i]) e
      (xs.mapM f) := by
  subst hn
  cases hm : xs.mapM f with
  | ok ys =>
    have hlen := length_mapM hm
    have hall (i : Nat) (hx : i < xs.length) (hy : i < ys.length) : fits i ∧ Q i ys[i] :=
      (h i hx).of_ok (getElem_mapM hm hx hy)
    exact ⟨fun i hi => (hall i hi (hlen.symm ▸ hi)).1, hlen,
      fun i hi => (hall i (hlen ▸ hi) hi).2⟩
  | error e' =>
    obtain ⟨x, hx, hfx⟩ := mapM_eq_error hm
    obtain ⟨i, hi, rfl⟩ := List.mem_iff_getElem.mp hx
    obtain ⟨hnot, he⟩ := (h i hi).of_error hfx
    exact ⟨fun hall => hnot (hall i hi), he⟩

end OkIff

end

/-! ## Numbers -/

abbrev Computes (x : ℚ) : Except ArithmeticError Fraction → Prop :=
  OkIff (Fits x) (·.toRat = x) .overflow

theorem Exact.computes {result : Except ArithmeticError Fraction} {undefined : Prop} {x : ℚ}
    (h : Exact result undefined x) (hx : ¬ undefined) : Computes x result := by
  cases hr : result with
  | ok r =>
    obtain ⟨hnum, hden⟩ := h.lowest r hr
    exact ⟨(h.ok.mp ⟨r, hr⟩).2, Rat.ext hnum hden⟩
  | error e =>
    cases e with
    | overflow => exact ⟨(h.overflow.mp hr).2, rfl⟩
    | divisionByZero => exact absurd (h.divisionByZero.mp hr) hx

namespace Grid

/-! ## Sums of products -/

def partialSum (xs ys : Nat → ℚ) (l : Nat) : ℚ := ∑ k ∈ Finset.range l, xs k * ys k

theorem partialSum_succ (xs ys : Nat → ℚ) (l : Nat) :
    partialSum xs ys (l + 1) = xs 0 * ys 0 + partialSum (xs <| · + 1) (ys <| · + 1) l := by
  rw [partialSum, Finset.sum_range_succ', add_comm]
  rfl

def DotFits (start : ℚ) (xs ys : Nat → ℚ) (n : Nat) : Prop :=
  (∀ k < n, Fits (xs k * ys k)) ∧ ∀ l < n, Fits (start + partialSum xs ys (l + 1))

theorem dotFits_succ {start : ℚ} {xs ys : Nat → ℚ} {n : Nat} :
    DotFits start xs ys (n + 1) ↔ (Fits (xs 0 * ys 0) ∧ Fits (start + xs 0 * ys 0)) ∧
      DotFits (start + xs 0 * ys 0) (xs <| · + 1) (ys <| · + 1) n := by
  have hzero (f g : Nat → ℚ) : partialSum f g 0 = 0 := rfl
  simp only [DotFits, Nat.forall_lt_succ_left, partialSum_succ, hzero, add_zero, add_assoc]
  tauto

theorem okIff_foldlM_dot {xs ys : List Fraction} (hlen : xs.length = ys.length) (start : Fraction) :
    OkIff (DotFits start.toRat (rowValue xs) (rowValue ys) xs.length)
      (·.toRat = start.toRat + partialSum (rowValue xs) (rowValue ys) xs.length) .overflow
      ((xs.zip ys).foldlM (fun sum (x, y) => do sum.add (← x.mul y)) start) := by
  induction xs generalizing ys start with
  | nil => simp [OkIff, DotFits, partialSum, pure, Except.pure]
  | cons x xs ih =>
    cases ys with
    | nil => cases hlen
    | cons y ys =>
      have hproduct := (Fraction.exact_mul x y).computes not_false
      have hsum : OkIff (Fits (x.toRat * y.toRat) ∧ Fits (start.toRat + x.toRat * y.toRat))
          (·.toRat = start.toRat + x.toRat * y.toRat) .overflow (do start.add (← x.mul y)) :=
        hproduct.bind fun p hp => hp ▸ (Fraction.exact_add start p).computes not_false
      have hfits := @dotFits_succ start.toRat (rowValue (x :: xs)) (rowValue (y :: ys)) xs.length
      rw [List.zip_cons_cons, List.foldlM_cons]
      refine OkIff.congr ?_ hfits.symm
      refine hsum.bind fun s hs => ?_
      have hrest := ih (Nat.succ.inj hlen) s
      rw [hs, add_assoc] at hrest
      rw [List.length_cons, partialSum_succ]
      exact hrest

theorem fits_zero : Fits 0 := ⟨by decide, by decide⟩

theorem okIff_dot {xs ys : List Fraction} {n : Nat} (hx : xs.length = n) (hy : ys.length = n) :
    OkIff ((∀ k < n, Fits (rowValue xs k * rowValue ys k)) ∧
        ∀ l ≤ n, Fits (partialSum (rowValue xs) (rowValue ys) l))
      (·.toRat = partialSum (rowValue xs) (rowValue ys) n) .overflow (dot xs ys) := by
  subst hx
  have hdot := okIff_foldlM_dot hy.symm 0
  simp only [DotFits, Fraction.toRat_zero, zero_add] at hdot
  refine hdot.congr (and_congr_right fun _ => ?_)
  constructor
  · intro h l hl
    cases l with
    | zero => exact fits_zero
    | succ l => exact h l hl
  · exact fun h l hl => h (l + 1) hl

/-! ## Tables of numbers -/

structure Tabulates (height width : Nat) (v : Nat → Nat → ℚ) (g : Grid) : Prop where
  length : g.length = height
  rectangular : g.Rectangular width
  value : ∀ i < height, ∀ j < width, g.value i j = v i j

section
variable {height width : Nat} {fits : Nat → Nat → Prop} {v : Nat → Nat → ℚ}

theorem okIff_table {α β : Type} {rows : List α} {cells : α → List β}
    {f : α → β → Except ArithmeticError Fraction} (hrows : rows.length = height)
    (hcells : ∀ r ∈ rows, (cells r).length = width)
    (hf : ∀ i (hi : i < rows.length) j (hj : j < (cells rows[i]).length),
      OkIff (fits i j) (·.toRat = v i j) .overflow (f rows[i] (cells rows[i])[j])) :
    OkIff (∀ i < height, ∀ j < width, fits i j) (Tabulates height width v) .overflow
      (rows.mapM fun r => (cells r).mapM (f r)) := by
  refine OkIff.mono (OkIff.mapM hrows fun i hi =>
    OkIff.mapM (hcells _ (List.getElem_mem hi)) (hf i hi)) fun g hg => ?_
  obtain ⟨hlen, hrow⟩ := hg
  refine ⟨hlen, fun row hmem => ?_, fun i hi j hj => ?_⟩
  · obtain ⟨i, hi, rfl⟩ := List.mem_iff_getElem.mp hmem
    exact (hrow i hi).1
  · have hi' : i < g.length := hlen.symm ▸ hi
    obtain ⟨hwidth, hcell⟩ := hrow i hi'
    have hj' : j < g[i].length := hwidth.symm ▸ hj
    rw [value_eq_getElem hi', rowValue_eq_getElem hj']
    exact hcell j hj'

end

variable {g h : Grid} {w : Nat}

theorem okIff_mapEntries {f : Fraction → Except ArithmeticError Fraction} (F : ℚ → ℚ)
    (hg : g.Rectangular w) (hf : ∀ a, Computes (F a.toRat) (f a)) :
    OkIff (∀ i < g.length, ∀ j < w, Fits (F (g.value i j)))
      (Tabulates g.length w fun i j => F (g.value i j)) .overflow (g.mapEntries f) := by
  refine okIff_table rfl hg fun i hi j hj => ?_
  rw [value_eq_getElem hi, rowValue_eq_getElem hj]
  exact hf _

theorem mapEntries_eq_error {f : Fraction → Except ArithmeticError Fraction} {e : ArithmeticError}
    (hg : 0 < g.width) (hf : ∀ a, f a = .error e) : g.mapEntries f = .error e := by
  match g with
  | [] => exact absurd hg (Nat.lt_irrefl 0)
  | [] :: _ => exact absurd hg (Nat.lt_irrefl 0)
  | (a :: row) :: rows =>
    rw [mapEntries, List.mapM_cons, List.mapM_cons, hf a]
    rfl

theorem okIff_zipEntries {f : Fraction → Fraction → Except ArithmeticError Fraction}
    {F : ℚ → ℚ → ℚ} (hg : g.Rectangular w) (hh : h.Rectangular w) (hlen : h.length = g.length)
    (hf : ∀ a b, Computes (F a.toRat b.toRat) (f a b)) :
    OkIff (∀ i < g.length, ∀ j < w, Fits (F (g.value i j) (h.value i j)))
      (Tabulates g.length w fun i j => F (g.value i j) (h.value i j)) .overflow
      (g.zipEntries f h) := by
  have hzip : g.zipEntries f h =
      (g.zip h).mapM fun q => (q.1.zip q.2).mapM fun p => f p.1 p.2 := rfl
  rw [hzip]
  refine okIff_table (by simp [hlen]) (fun q hq => ?_) fun i hi j hj => ?_
  · obtain ⟨hr, hs⟩ := List.of_mem_zip (show (q.1, q.2) ∈ g.zip h from hq)
    rw [List.length_zip, hg _ hr, hh _ hs, Nat.min_self]
  · simp only [List.length_zip, List.getElem_zip, Nat.lt_min] at hi hj ⊢
    rw [value_eq_getElem hi.1, value_eq_getElem hi.2, rowValue_eq_getElem hj.1,
      rowValue_eq_getElem hj.2]
    exact hf _ _

theorem okIff_mul (hg : g.Rectangular h.length) :
    OkIff
      (∀ i < g.length, ∀ j < h.width, (∀ k < h.length, Fits (g.value i k * h.value k j)) ∧
        ∀ l ≤ h.length, Fits (partialSum (g.value i) (h.value · j) l))
      (Tabulates g.length h.width fun i j => partialSum (g.value i) (h.value · j) h.length)
      .overflow (g.mul h) := by
  refine okIff_table rfl (fun _ _ => List.length_range) fun i hi j hj => ?_
  have hdot := okIff_dot (hg _ (List.getElem_mem hi)) (by simp [column] : (h.column j).length = _)
  rw [List.getElem_range, show g.value i = rowValue g[i] from funext (value_eq_getElem hi),
    show (h.value · j) = rowValue (h.column j) from funext fun k => (rowValue_column h k j).symm]
  simpa only [rowValue_column] using hdot

end Grid

/-! ## Matrices -/

namespace RatMatrix

open Grid

variable {m n : RatMatrix} {height width : Nat} {fits : Prop} {v : Nat → Nat → ℚ}

theorem okIff_ofResult {r : Except ArithmeticError Grid} (hheight : 0 < height) (hwidth : 0 < width)
    (h : OkIff fits (Tabulates height width v) .overflow r) :
    OkIff fits (fun p : RatMatrix => p.rows.Tabulates height width v) (.arithmetic .overflow)
      (ofResult r) := by
  refine OkIff.congr (OkIff.bind (h.mapError MatrixError.arithmetic) fun g hg => ?_)
    (and_true fits).to_iff
  obtain ⟨p, hp⟩ := ofRows_of_rectangular hg.rectangular (hg.length.symm ▸ hheight) hwidth
  obtain rfl := rows_of_ofRows hp
  rw [hp]
  exact ⟨trivial, hg⟩

end RatMatrix

end MatrixScript
