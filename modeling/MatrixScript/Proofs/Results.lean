import Mathlib.Data.List.Forall2

/-!
# Computations that can fail

A sequence of computations succeeds exactly if each of them does, and otherwise fails as one of them.
-/

namespace MatrixScript

variable {ε α β : Type}

instance decidableEqResult {σ : Type} [DecidableEq ε] [DecidableEq σ] [DecidableEq α] :
    DecidableEq (EStateM.Result ε σ α)
  | .ok x s, .ok y t => decidable_of_iff (x = y ∧ s = t) (by simp)
  | .error e s, .error e' t => decidable_of_iff (e = e' ∧ s = t) (by simp)
  | .ok _ _, .error _ _ | .error _ _, .ok _ _ => isFalse (by simp)

theorem bind_eq_ok_iff {x : Except ε α} {f : α → Except ε β} {b : β} :
    x >>= f = .ok b ↔ ∃ a, x = .ok a ∧ f a = .ok b := by
  cases x with
  | error e => simp [bind, Except.bind]
  | ok a => simp [bind, Except.bind]

theorem bind_eq_error_iff {x : Except ε α} {f : α → Except ε β} {e : ε} :
    x >>= f = .error e ↔ x = .error e ∨ ∃ a, x = .ok a ∧ f a = .error e := by
  cases x with
  | error e' => simp [bind, Except.bind]
  | ok a => simp [bind, Except.bind]

theorem map_eq_ok_iff {x : Except ε α} {f : α → β} {b : β} :
    f <$> x = .ok b ↔ ∃ a, x = .ok a ∧ f a = b := by
  cases x with
  | error e => simp [Functor.map, Except.map]
  | ok a => simp [Functor.map, Except.map]

theorem map_eq_error_iff {x : Except ε α} {f : α → β} {e : ε} :
    f <$> x = .error e ↔ x = .error e := by
  cases x with
  | error e' => simp [Functor.map, Except.map]
  | ok a => simp [Functor.map, Except.map]

theorem mapM_eq_ok_iff {f : α → Except ε β} {xs : List α} {ys : List β} :
    xs.mapM f = .ok ys ↔ List.Forall₂ (fun x y => f x = .ok y) xs ys := by
  induction xs generalizing ys with
  | nil => simp [pure, Except.pure, eq_comm]
  | cons x xs ih =>
    rw [List.mapM_cons, bind_eq_ok_iff, List.forall₂_cons_left_iff]
    simp only [bind_eq_ok_iff, ih, pure, Except.pure, Except.ok.injEq]
    constructor
    · rintro ⟨y, hy, ys, hys, rfl⟩; exact ⟨y, ys, hy, hys, rfl⟩
    · rintro ⟨y, ys, hy, hys, rfl⟩; exact ⟨y, hy, ys, hys, rfl⟩

theorem length_mapM {f : α → Except ε β} {xs : List α} {ys : List β} (h : xs.mapM f = .ok ys) :
    ys.length = xs.length := (mapM_eq_ok_iff.mp h).length_eq.symm

theorem getElem_mapM {f : α → Except ε β} {xs : List α} {ys : List β} (h : xs.mapM f = .ok ys)
    {i : Nat} (hx : i < xs.length) (hy : i < ys.length) : f xs[i] = .ok ys[i] :=
  (List.forall₂_iff_get.mp (mapM_eq_ok_iff.mp h)).2 i hx hy

theorem mapM_eq_error {f : α → Except ε β} {xs : List α} {e : ε} (h : xs.mapM f = .error e) :
    ∃ x ∈ xs, f x = .error e := by
  induction xs with
  | nil => simp [pure, Except.pure] at h
  | cons x xs ih =>
    rw [List.mapM_cons, bind_eq_error_iff] at h
    rcases h with h | ⟨y, -, h⟩
    · exact ⟨x, by simp, h⟩
    · rw [bind_eq_error_iff] at h
      rcases h with h | ⟨ys, -, h⟩
      · obtain ⟨z, hz, hf⟩ := ih h
        exact ⟨z, List.mem_cons_of_mem _ hz, hf⟩
      · simp [pure, Except.pure] at h

theorem mapM_ok {f : α → Except ε β} {g : α → β} {xs : List α} (h : ∀ x ∈ xs, f x = .ok (g x)) :
    xs.mapM f = .ok (xs.map g) := by
  rw [mapM_eq_ok_iff, List.forall₂_map_right_iff, List.forall₂_same]
  exact h

theorem exists_mapM_eq_ok {f : α → Except ε β} {xs : List α} (h : ∀ x ∈ xs, ∃ y, f x = .ok y) :
    ∃ ys, xs.mapM f = .ok ys := by
  cases hm : xs.mapM f with
  | ok ys => exact ⟨ys, rfl⟩
  | error e =>
    obtain ⟨x, hx, hf⟩ := mapM_eq_error hm
    obtain ⟨y, hy⟩ := h x hx
    rw [hy] at hf
    cases hf

theorem foldlM_eq_error {f : β → α → Except ε β} {xs : List α} {start : β} {e : ε}
    (h : xs.foldlM f start = .error e) : ∃ s, ∃ x ∈ xs, f s x = .error e := by
  induction xs generalizing start with
  | nil => cases h
  | cons x xs ih =>
    rw [List.foldlM_cons, bind_eq_error_iff] at h
    rcases h with h | ⟨s, -, h⟩
    · exact ⟨start, x, List.mem_cons_self .., h⟩
    · obtain ⟨s', y, hy, hf⟩ := ih h
      exact ⟨s', y, List.mem_cons_of_mem _ hy, hf⟩

/-! ## Folds over the first numbers -/

section
variable {f : α → Nat → Except ε α} {start : α} {n : Nat}

/-- What holds at the start and is kept by each step holds in the end. -/
theorem foldlM_range_ok (P : Nat → α → Prop) (h₀ : P 0 start)
    (hs : ∀ c < n, ∀ s s', P c s → f s c = .ok s' → P (c + 1) s') {last : α}
    (h : (List.range n).foldlM f start = .ok last) : P n last := by
  induction n generalizing last with
  | zero => cases h; exact h₀
  | succ n ih =>
    rw [List.range_succ, List.foldlM_append, bind_eq_ok_iff] at h
    obtain ⟨s, hn, hl⟩ := h
    have hP := ih (fun c hc => hs c (by omega)) hn
    simp only [List.foldlM_cons, List.foldlM_nil, bind_pure] at hl
    exact hs n (by omega) s last hP hl

theorem foldlM_range_error (P : Nat → α → Prop) (h₀ : P 0 start)
    (hs : ∀ c < n, ∀ s s', P c s → f s c = .ok s' → P (c + 1) s') {e : ε}
    (h : (List.range n).foldlM f start = .error e) : ∃ c < n, ∃ s, P c s ∧ f s c = .error e := by
  induction n with
  | zero => cases h
  | succ n ih =>
    rw [List.range_succ, List.foldlM_append, bind_eq_error_iff] at h
    rcases h with h | ⟨s, hn, hl⟩
    · obtain ⟨c, hc, s, hP, hf⟩ := ih (fun c hc => hs c (by omega)) h
      exact ⟨c, by omega, s, hP, hf⟩
    · simp only [List.foldlM_cons, List.foldlM_nil, bind_pure] at hl
      exact ⟨n, by omega, s, foldlM_range_ok P h₀ (fun c hc => hs c (by omega)) hn, hl⟩

end

end MatrixScript
