import Mathlib.Logic.Function.Iterate
import MatrixScript.Proofs.AbsorbedSigns
import MatrixScript.Proofs.Relocation

/-!
# Settled signs

A minus sign that becomes part of a number can leave another one before a number without a sign:
`- - 0` becomes `- 0`, and then `0`.  A statement is settled when this has been repeated until no
such sign is left.
-/

namespace MatrixScript

/-! ## Rounds -/

theorem fuse_eq_or_length_lt (items : List (Item Operand)) :
    fuse items = items ∨ (fuse items).length < items.length := by
  induction items using fuse_induct with
  | nil => exact .inl rfl
  | pair sign n items hneg hn ih =>
    have hle : (fuse items).length ≤ items.length := by
      rcases ih with h | h
      · rw [h]
      · exact Nat.le_of_lt h
    rw [fuse_pair hneg hn]
    exact .inr (Nat.succ_lt_succ (Nat.lt_succ_of_le hle))
  | cons item items hfuses ih =>
    rw [fuse_cons hfuses]
    exact ih.imp (congrArg _) Nat.succ_lt_succ

/-- Minus signs become parts of numbers, from left to right and round after round, until none is left
that could. -/
def fuseAll (items : List (Item Operand)) : List (Item Operand) := fuse^[items.length] items

theorem fuse_iterate {rounds : Nat} {items : List (Item Operand)} (h : items.length ≤ rounds) :
    fuse (fuse^[rounds] items) = fuse^[rounds] items := by
  induction rounds generalizing items with
  | zero =>
    obtain rfl := List.length_eq_zero_iff.mp (Nat.le_zero.mp h)
    rfl
  | succ rounds ih =>
    rcases fuse_eq_or_length_lt items with hfixed | hlt
    · rw [Function.iterate_fixed hfixed, hfixed]
    · exact ih (Nat.le_of_lt_succ (Nat.lt_of_lt_of_le hlt h))

theorem fuse_fuseAll (items : List (Item Operand)) : fuse (fuseAll items) = fuseAll items :=
  fuse_iterate le_rfl

theorem fuseAll_map (f : List (Item Operand) → List (Item Operand)) (items : List (Item Operand)) :
    fuseAll (items.map (reshapeItem f)) = (fuseAll items).map (reshapeItem f) := by
  have hcommute : Function.Semiconj (List.map (reshapeItem f)) fuse fuse := fun items =>
    (fuse_map f items).symm
  rw [fuseAll, List.length_map]
  exact (hcommute.iterate_right _ items).symm

/-! ## From right to left -/

theorem attach_eq_cons {item : Item Operand} {items : List (Item Operand)}
    (h : fuses item items = false) : attach item items = item :: items := by
  rcases attach_cases item items with hcons | ⟨span, n, rest, rfl, rfl, hn, -⟩
  · exact hcons
  · simp [fuses, startsUnsigned, hn] at h

theorem absorb_eq_self {items : List (Item Operand)} (h : fuse items = items) :
    absorb items = items := by
  induction items using fuse_induct with
  | nil => rfl
  | pair sign n items hneg hn ih =>
    rw [fuse_pair hneg hn] at h
    cases (List.cons.inj h).1
  | cons item items hfuses ih =>
    rw [fuse_cons hfuses] at h
    change attach item (absorb items) = item :: items
    rw [ih (List.cons.inj h).2, attach_eq_cons hfuses]

theorem attach_map (f : List (Item Operand) → List (Item Operand)) (item : Item Operand)
    (items : List (Item Operand)) :
    attach (reshapeItem f item) (items.map (reshapeItem f)) =
      (attach item items).map (reshapeItem f) := by
  cases hfuses : fuses item items with
  | false =>
    rw [attach_eq_cons hfuses, attach_eq_cons ((fuses_reshape f item items).trans hfuses)]
    rfl
  | true =>
    cases item with
    | unary sign =>
      obtain ⟨value, span⟩ := sign
      obtain ⟨hneg, n, rest, rfl, hn⟩ := exists_of_fuses hfuses
      cases hneg
      change attach (.unary ⟨.neg, nowhere⟩) (.operand (.number ⟨n.value, nowhere⟩) :: _) = _
      rw [attach, attach, if_pos hn, if_pos hn]
      rfl
    | operand | binary | opening | closing => cases hfuses

theorem absorb_map (f : List (Item Operand) → List (Item Operand)) (items : List (Item Operand)) :
    absorb (items.map (reshapeItem f)) = (absorb items).map (reshapeItem f) := by
  induction items with
  | nil => rfl
  | cons item items ih =>
    change attach _ (absorb (items.map _)) = (attach item (absorb items)).map _
    rw [ih, attach_map]

/-- A round from left to right leaves as much to do from right to left. -/
theorem absorb_fuse (f : List (Item Operand) → List (Item Operand)) (items : List (Item Operand)) :
    (absorb (fuse items)).map (reshapeItem f) = (absorb items).map (reshapeItem f) := by
  induction items using fuse_induct with
  | nil => rfl
  | pair sign n items hneg hn ih =>
    obtain ⟨value, span⟩ := sign
    cases hneg
    have habsorb : absorb (.unary ⟨.neg, span⟩ :: .operand (.number n) :: items) =
        .operand (.number ⟨-n.value, span.through n.span⟩) :: absorb items := if_pos hn
    rw [fuse_pair rfl hn, habsorb]
    exact congrArg (.operand (.number ⟨-n.value, nowhere⟩) :: ·) ih
  | cons item items hfuses ih =>
    rw [fuse_cons hfuses]
    change (attach item (absorb (fuse items))).map _ = (attach item (absorb items)).map _
    rw [← attach_map, ← attach_map, ih]

theorem absorb_iterate (f : List (Item Operand) → List (Item Operand)) (rounds : Nat)
    (items : List (Item Operand)) :
    (absorb (fuse^[rounds] items)).map (reshapeItem f) = (absorb items).map (reshapeItem f) := by
  induction rounds generalizing items with
  | zero => rfl
  | succ rounds ih => exact (ih (fuse items)).trans (absorb_fuse f items)

/-- Up to spans, the signs that are left out one round after the other are those that are left out
from right to left. -/
theorem fuseAll_eq_absorb (f : List (Item Operand) → List (Item Operand))
    (items : List (Item Operand)) :
    fuseAll (items.map (reshapeItem f)) = absorb (items.map (reshapeItem f)) :=
  calc fuseAll (items.map (reshapeItem f))
    _ = (fuseAll items).map (reshapeItem f) := fuseAll_map f items
    _ = (absorb (fuseAll items)).map (reshapeItem f) := by rw [absorb_eq_self (fuse_fuseAll items)]
    _ = (absorb items).map (reshapeItem f) := absorb_iterate f _ items
    _ = absorb (items.map (reshapeItem f)) := (absorb_map f items).symm

/-! ## Programs -/

section
variable {f f' : List (Item Operand) → List (Item Operand)}

theorem map_reshapeItem_congr {items : List (Item Operand)}
    (h : ∀ x, .operand x ∈ items → reshapeOperand f x = reshapeOperand f' x) :
    items.map (reshapeItem f) = items.map (reshapeItem f') := by
  refine List.map_congr_left fun item hi => ?_
  cases item with
  | operand x => exact congrArg Item.operand (h x hi)
  | binary | unary | opening | closing => rfl

section
variable (hf : ∀ items : List (Item Operand),
  f (items.map (reshapeItem f)) = f' (items.map (reshapeItem f)))
include hf

theorem reshape_congr_of {e : Expression}
    (h : ∀ x, .operand x ∈ e.items → reshapeOperand f x = reshapeOperand f' x) :
    reshape f e = reshape f' e := by
  obtain ⟨items, span⟩ := e
  rw [reshape, reshape, reshapeItems_eq_map, reshapeItems_eq_map, hf, map_reshapeItem_congr h]

theorem reshapeOperand_congr (x : Operand) : reshapeOperand f x = reshapeOperand f' x := by
  refine Operand.induct (P := fun x => reshapeOperand f x = reshapeOperand f' x)
    (fun x hx => ?_) x
  beta_reduce
  rw [x.reshapeOperand_eq_remake, x.reshapeOperand_eq_remake]
  exact Operand.remake_congr fun e he => reshape_congr_of hf (hx e he)

/-- Two ways to put other items give the same statement if they agree on items without spans. -/
theorem Statement.reshape_congr (s : Statement) : s.reshape f = s.reshape f' := by
  cases s with
  | declaration d =>
    rw [reshape, reshape, reshape_congr_of hf fun x _ => reshapeOperand_congr hf x]
  | call c => exact congrArg Statement.call (Operand.call.inj (reshapeOperand_congr hf (.call c)))

end

/-! ### Nothing is left -/

theorem reshape_fuse_of {e : Expression}
    (h : ∀ x, .operand x ∈ e.items →
      reshapeOperand fuse (reshapeOperand fuseAll x) = reshapeOperand fuseAll x) :
    reshape fuse (reshape fuseAll e) = reshape fuseAll e := by
  obtain ⟨items, span⟩ := e
  have hitems : (items.map (reshapeItem fuseAll)).map (reshapeItem fuse) =
      items.map (reshapeItem fuseAll) := by
    rw [List.map_map]
    refine List.map_congr_left fun item hi => ?_
    cases item with
    | operand x => exact congrArg Item.operand (h x hi)
    | binary | unary | opening | closing => rfl
  rw [reshape, reshape, reshapeItems_eq_map, reshapeItems_eq_map, fuse_map, fuse_fuseAll,
    ← fuseAll_map, hitems]

theorem reshapeOperand_fuse (x : Operand) :
    reshapeOperand fuse (reshapeOperand fuseAll x) = reshapeOperand fuseAll x := by
  refine Operand.induct
    (P := fun x => reshapeOperand fuse (reshapeOperand fuseAll x) = reshapeOperand fuseAll x)
    (fun x hx => ?_) x
  beta_reduce
  rw [Operand.reshapeOperand_eq_remake, Operand.reshapeOperand_eq_remake, Operand.remake_remake]
  exact Operand.remake_congr fun e he => reshape_fuse_of (hx e he)

end

namespace Statement

/-- The statement up to spans, with no minus sign left before a number without one. -/
def settled : Statement → Statement := reshape fuseAll

theorem settled_eq : settled = reshape absorb := funext (reshape_congr (fuseAll_eq_absorb fuseAll))

theorem normal_settled (s : Statement) : s.settled.normal = s.settled := by
  cases s with
  | declaration d =>
    have hvalue := reshape_fuse_of fun x (_ : .operand x ∈ d.value.items) => reshapeOperand_fuse x
    exact congrArg (fun e => declaration ⟨⟨d.name.value, nowhere⟩, e, nowhere⟩) hvalue
  | call c => exact congrArg call (Operand.call.inj (reshapeOperand_fuse (.call c)))

end Statement

end MatrixScript
