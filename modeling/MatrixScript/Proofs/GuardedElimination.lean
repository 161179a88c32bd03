import MatrixScript.Proofs.EliminationSound

/-!
# Guarded elimination

The elimination reads rows and entries that it takes to be there.  Its guarded version looks them
up, and panics at a lookup that finds nothing.  On a grid whose rows are wide enough for the pivot
columns the two do the same, so no lookup fails.
-/

namespace MatrixScript

/-- Why a computation stops: an error that it reports, or a lookup that found nothing. -/
inductive Stop (ε : Type)
  | error (e : ε)
  | panic

def Stop.map {ε ε' : Type} (f : ε → ε') : Stop ε → Stop ε'
  | .error e => .error (f e)
  | .panic => .panic

namespace Guarded

variable {ε ε' α β : Type}

/-! ## Computations that do not panic -/

def sure (x : Except ε α) : Except (Stop ε) α := x.mapError .error

theorem sure_bind_congr {x : Except ε α} {f : α → Except (Stop ε) β} {g : α → Except ε β}
    (h : ∀ a, x = .ok a → f a = sure (g a)) : (sure x >>= f) = sure (x >>= g) := by
  cases x with
  | error e => rfl
  | ok a => exact h a rfl

theorem map_sure (f : α → β) (x : Except ε α) : f <$> sure x = sure (f <$> x) := by
  cases x <;> rfl

theorem mapError_sure (f : ε → ε') (x : Except ε α) :
    (sure x).mapError (Stop.map f) = sure (x.mapError f) := by
  cases x <;> rfl

section
variable {xs : List α}

theorem mapM_sure {f : α → Except (Stop ε) β} {g : α → Except ε β}
    (h : ∀ x ∈ xs, f x = sure (g x)) : xs.mapM f = sure (xs.mapM g) := by
  induction xs with
  | nil => rfl
  | cons x xs ih =>
    obtain ⟨hx, hxs⟩ := List.forall_mem_cons.mp h
    rw [List.mapM_cons, List.mapM_cons, hx, ih hxs]
    exact sure_bind_congr fun y _ => sure_bind_congr fun ys _ => rfl

theorem findM?_ok {p : α → Except (Stop ε) Bool} {q : α → Bool} (h : ∀ x ∈ xs, p x = .ok (q x)) :
    xs.findM? p = .ok (xs.find? q) := by
  induction xs with
  | nil => rfl
  | cons x xs ih =>
    obtain ⟨hx, hxs⟩ := List.forall_mem_cons.mp h
    rw [List.findM?, hx, List.find?_cons]
    change (match q x with | true => pure (some x) | false => List.findM? p xs) = _
    cases q x with
    | true => rfl
    | false => exact ih hxs

/-- The steps of a fold do not panic if none of them does on what the steps before it keep. -/
theorem foldlM_sure {σ : Type} {f : σ → α → Except (Stop ε) σ} {g : σ → α → Except ε σ}
    (P : σ → Prop)
    (hstep : ∀ s, P s → ∀ x ∈ xs, f s x = sure (g s x) ∧ ∀ s', g s x = .ok s' → P s') {s : σ}
    (hs : P s) : xs.foldlM f s = sure (xs.foldlM g s) := by
  induction xs generalizing s with
  | nil => rfl
  | cons x xs ih =>
    obtain ⟨hx, hP⟩ := hstep s hs x List.mem_cons_self
    rw [List.foldlM_cons, List.foldlM_cons, hx]
    exact sure_bind_congr fun s' hs' =>
      ih (fun t ht y hy => hstep t ht y (List.mem_cons_of_mem _ hy)) (hP s' hs')

end

/-! ## Lookups -/

def get (xs : List α) (i : Nat) : Except (Stop ε) α :=
  match xs[i]? with
  | some x => .ok x
  | none => .error .panic

def drop (n : Nat) (xs : List α) : Except (Stop ε) (List α) :=
  if n ≤ xs.length then .ok (xs.drop n) else .error .panic

def entry (g : Grid) (i j : Nat) : Except (Stop ε) Fraction := do get (← get g i) j

theorem get_eq_getD {xs : List α} {i : Nat} (h : i < xs.length) (d : α) :
    get xs i = (.ok (xs.getD i d) : Except (Stop ε) α) := by
  rw [get, List.getElem?_eq_getElem h, List.getD_eq_getElem _ _ h]

section
variable {g : Grid} {w i j : Nat}

theorem get_row (hi : i < g.length) :
    get g i = (.ok (g.getD i []) : Except (Stop ε) (List Fraction)) := get_eq_getD hi []

theorem get_getD (hg : g.Rectangular w) (hi : i < g.length) (hj : j < w) :
    get (g.getD i []) j = (.ok (g.entry i j) : Except (Stop ε) Fraction) :=
  get_eq_getD (by rwa [Grid.length_getD hg hi]) 0

theorem entry_eq (hg : g.Rectangular w) (hi : i < g.length) (hj : j < w) :
    entry g i j = (.ok (g.entry i j) : Except (Stop ε) Fraction) := by
  rw [entry, get_row hi]
  exact get_getD hg hi hj

end

/-! ## The elimination -/

def pivotRow? (g : Grid) (r c : Nat) : Except (Stop ArithmeticError) (Option Nat) :=
  (List.range' r (g.length - r)).findM? fun k => do return !(← entry g k c).isZero

def swap (g : Grid) (i j : Nat) : Except (Stop ArithmeticError) Grid := do
  let x ← get g i
  let y ← get g j
  return (g.set i y).set j x

def clearColumn (above : Bool) (pivotRow : List Fraction) (pivot : Fraction) (g : Grid)
    (r c : Nat) : Except (Stop ArithmeticError) Grid :=
  g.zipIdx.mapM fun (row, i) => do
    if i = r ∨ (i < r ∧ ¬above) then
      return row
    else
      let x ← get row c
      if x.isZero then
        return row
      else
        let factor ← sure (x.div pivot)
        sure (Grid.subtractMultiple factor row pivotRow)

def divideRow (g : Grid) (i : Nat) (divisor : Fraction) : Except (Stop ArithmeticError) Grid := do
  let row ← get g i
  return g.set i (← sure (row.mapM (·.div divisor)))

def finish (mode : Mode) (g : Grid) (i : Nat) (pivot : Fraction) :
    Except (Stop ArithmeticError) Grid :=
  if mode.normalize then divideRow g i pivot else pure g

def usePivot (mode : Mode) (s : Elimination) (c k : Nat) :
    Except (Stop ArithmeticError) Elimination := do
  let swapped ← swap s.grid s.row k
  let pivotRow ← get swapped s.row
  let pivot ← get pivotRow c
  let cleared ← clearColumn mode.above pivotRow pivot swapped s.row c
  let finished ← finish mode cleared s.row pivot
  return {
    grid := finished
    row := s.row + 1
    pivots := s.pivots ++ [(s.row, c)]
    swaps := if k = s.row then s.swaps else s.swaps + 1 }

def step (mode : Mode) (s : Elimination) (c : Nat) : Except (Stop ArithmeticError) Elimination := do
  if s.row < s.grid.length then
    match ← pivotRow? s.grid s.row c with
    | none => return { s with row := if mode.diagonal then s.row + 1 else s.row }
    | some k => usePivot mode s c k
  else
    return s

def eliminate (g : Grid) (pivotCols : Nat) (mode : Mode) :
    Except (Stop ArithmeticError) Elimination :=
  (List.range pivotCols).foldlM (step mode) ⟨g, 0, [], 0⟩

section
variable {g : Grid} {w r c : Nat}

theorem pivotRow?_eq (hg : g.Rectangular w) (hc : c < w) :
    pivotRow? g r c = .ok (Elimination.pivotRow? g r c) := by
  refine findM?_ok fun k hk => ?_
  obtain ⟨hle, hlt⟩ := List.mem_range'_1.mp hk
  have hk : k < g.length := by omega
  rw [entry_eq hg hk hc]
  rfl

theorem swap_eq {i j : Nat} (hi : i < g.length) (hj : j < g.length) :
    swap g i j = .ok (g.swap i j) := by
  rw [swap, get_row hi, get_row hj]
  rfl

theorem clearColumn_eq (above : Bool) (hg : g.Rectangular w) (hc : c < w) :
    clearColumn above (g.getD r []) (g.entry r c) g r c =
      sure (Elimination.clearColumn above g r c) := by
  refine mapM_sure fun ⟨row, i⟩ hmem => ?_
  have hrow : c < row.length := by rwa [hg row (List.fst_mem_of_mem_zipIdx hmem)]
  dsimp only
  by_cases hskip : i = r ∨ (i < r ∧ ¬above)
  · have hskip' : i = r ∨ (i < r ∧ ¬above) ∨ (row.getD c 0).isZero := by tauto
    rw [if_pos hskip, if_pos hskip']
    rfl
  · rw [if_neg hskip, get_eq_getD hrow 0]
    change (if (row.getD c 0).isZero then _ else _) = _
    by_cases hzero : (row.getD c 0).isZero
    · rw [if_pos hzero, if_pos (.inr (.inr hzero))]
      rfl
    · have hclear : ¬(i = r ∨ (i < r ∧ ¬above) ∨ (row.getD c 0).isZero) := by tauto
      rw [if_neg hzero, if_neg hclear]
      exact sure_bind_congr fun factor _ => rfl

theorem divideRow_eq {i : Nat} (hi : i < g.length) (divisor : Fraction) :
    divideRow g i divisor = sure (g.divideRow i divisor) := by
  rw [divideRow, get_row hi]
  exact sure_bind_congr fun row _ => rfl

theorem usePivot_eq (mode : Mode) {s : Elimination} {k : Nat} (hs : s.grid.Rectangular w)
    (hc : c < w) (hr : s.row < s.grid.length)
    (hf : Elimination.pivotRow? s.grid s.row c = some k) :
    usePivot mode s c k = sure (Elimination.step mode s c) := by
  obtain ⟨-, hk, -⟩ := Elimination.pivotRow?_eq_some hf
  have hswapped := hs.swap hr hk
  have hr' : s.row < (s.grid.swap s.row k).length := by rwa [Grid.length_swap]
  rw [usePivot, swap_eq hr hk, Elimination.step_of_pivotRow?_eq_some hr hf]
  change (get (s.grid.swap s.row k) s.row >>= fun pivotRow => _) = _
  rw [get_row hr']
  change (get ((s.grid.swap s.row k).getD s.row []) c >>= fun pivot => _) = _
  rw [get_getD hswapped hr' hc]
  change (clearColumn mode.above _ ((s.grid.swap s.row k).entry s.row c) _ s.row c >>= _) = _
  rw [clearColumn_eq mode.above hswapped hc]
  refine sure_bind_congr fun cleared hcleared => ?_
  -- clearing changes no number of rows, so the pivot row is still there to be divided
  have hr'' : s.row < cleared.length := by rwa [Elimination.length_clearColumn hcleared]
  rw [finish]
  cases mode.normalize with
  | false => rfl
  | true =>
    rw [if_pos rfl, if_pos rfl, divideRow_eq hr'']
    exact sure_bind_congr fun _ _ => rfl

theorem step_eq (mode : Mode) {s : Elimination} (hs : s.grid.Rectangular w) (hc : c < w) :
    step mode s c = sure (Elimination.step mode s c) := by
  by_cases hr : s.row < s.grid.length
  · rw [step, if_pos hr, pivotRow?_eq hs hc]
    cases hf : Elimination.pivotRow? s.grid s.row c with
    | none =>
      rw [Elimination.step, if_pos hr, hf]
      rfl
    | some k => exact usePivot_eq mode hs hc hr hf
  · rw [step, if_neg hr, Elimination.step, if_neg hr]
    rfl

theorem eliminate_eq (mode : Mode) {pivotCols : Nat} (hg : g.Rectangular w)
    (hcols : pivotCols ≤ w) :
    eliminate g pivotCols mode = sure (MatrixScript.eliminate g pivotCols mode) := by
  -- the steps keep the grid rectangular, and that is all that their lookups need
  refine foldlM_sure (fun s => s.grid.Rectangular w) (fun s hs c hc => ?_) hg
  have hc : c < w := (List.mem_range.mp hc).trans_le hcols
  exact ⟨step_eq mode hs hc, fun s' hstep => (Elimination.step_eq_ok hs hstep).rectangular hs⟩

/-- The second row ends before the column in which a pivot is looked for. -/
example : eliminate [[1, 0, 1], [1]] 2 ⟨true, true, false⟩ = .error .panic := by rfl

end

end Guarded

end MatrixScript
