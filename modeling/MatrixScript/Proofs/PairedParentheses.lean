import MatrixScript.Proofs.PostfixOrder
import Mathlib.Data.List.Induction

/-!
# Parentheses and their partners

Two parentheses are partners if what stands between them is balanced.  Reordering succeeds exactly
if the items are balanced, and then the operands keep their order.  Otherwise it fails at the first
closing parenthesis without a partner, or else at the last opening one without a partner.
-/

namespace MatrixScript

variable {ω : Type}

def Item.isParenthesis : Item ω → Bool
  | .opening _ | .closing _ => true
  | .operand _ | .binary _ | .unary _ => false

inductive Balanced : List (Item ω) → Prop
  | nil : Balanced []
  | cons {item : Item ω} {items : List (Item ω)} :
    item.isParenthesis = false → Balanced items → Balanced (item :: items)
  | group (opening closing : Span) {inner items : List (Item ω)} :
    Balanced inner → Balanced items →
      Balanced (.opening opening :: (inner ++ .closing closing :: items))

def Partners (items : List (Item ω)) (i j : Nat) : Prop :=
  ∃ before opening inner closing after,
    items = before ++ .opening opening :: (inner ++ .closing closing :: after) ∧ Balanced inner ∧
      before.length = i ∧ (before ++ .opening opening :: inner).length = j

structure LoneClosing (items : List (Item ω)) (j : Nat) (span : Span) : Prop where
  found : items[j]? = some (.closing span)
  alone : ∀ i, ¬ Partners items i j

structure LoneOpening (items : List (Item ω)) (i : Nat) (span : Span) : Prop where
  found : items[i]? = some (.opening span)
  alone : ∀ j, ¬ Partners items i j

/-! ## Open parentheses -/

/-- What an item makes of the open parentheses, innermost first; nothing is left if it closes one
where none is open. -/
def Item.openAfter? (opened : List Span) : Item ω → Option (List Span)
  | .opening span => some (span :: opened)
  | .closing _ => opened.tail?
  | .operand _ | .binary _ | .unary _ => some opened

def openAfter? (opened : List Span) (items : List (Item ω)) : Option (List Span) :=
  items.foldlM Item.openAfter? opened

section
variable {opened opened' : List Span} {items before after : List (Item ω)}

@[simp] theorem openAfter?_nil : openAfter? opened ([] : List (Item ω)) = some opened := rfl

@[simp] theorem openAfter?_cons (item : Item ω) :
    openAfter? opened (item :: items) = item.openAfter? opened >>= (openAfter? · items) := rfl

@[simp] theorem openAfter?_append :
    openAfter? opened (before ++ after) = openAfter? opened before >>= (openAfter? · after) :=
  List.foldlM_append

theorem openAfter?_of_balanced (h : Balanced items) (opened : List Span) :
    openAfter? opened items = some opened := by
  induction h generalizing opened with
  | nil => rfl
  | @cons item items hitem _ ih =>
    have hopen : item.openAfter? opened = some opened := by
      cases item with
      | opening span => cases hitem
      | closing span => cases hitem
      | _ => rfl
    simp [hopen, ih]
  | group opening closing _ _ ihi ih => simp [Item.openAfter?, ihi, ih]

/-- Parentheses that are open outside do not matter as long as none is missing. -/
theorem openAfter?_outside (outside : List Span) (h : openAfter? opened items = some opened') :
    openAfter? (opened ++ outside) items = some (opened' ++ outside) := by
  induction items generalizing opened with
  | nil => cases h; rfl
  | cons item items ih =>
    cases item with
    | opening span => exact ih h
    | closing span =>
      cases opened with
      | nil => cases h
      | cons s opened => exact ih h
    | operand x => exact ih h
    | binary op => exact ih h
    | unary op => exact ih h

/-! ## What is left open -/

theorem Balanced.append (hx : Balanced before) (hy : Balanced after) :
    Balanced (before ++ after) := by
  induction hx with
  | nil => exact hy
  | cons hitem _ ih => exact ih.cons hitem
  | group opening closing hi _ _ ih =>
    simpa using Balanced.group opening closing hi ih

/-- The parentheses that have no partner are opening ones, and these are they, innermost first. -/
inductive LeavesOpen : List Span → List (Item ω) → Prop
  | balanced {items : List (Item ω)} : Balanced items → LeavesOpen [] items
  | opening (span : Span) {opened : List Span} {before after : List (Item ω)} :
    LeavesOpen opened before → Balanced after →
      LeavesOpen (span :: opened) (before ++ .opening span :: after)

theorem LeavesOpen.append (h : LeavesOpen opened before) (ha : Balanced after) :
    LeavesOpen opened (before ++ after) := by
  cases h with
  | balanced hb => exact .balanced (hb.append ha)
  | opening span hopened hb => simpa using hopened.opening span (hb.append ha)

theorem leavesOpen_of_openAfter? (h : openAfter? [] items = some opened) :
    LeavesOpen opened items := by
  induction items using List.reverseRecOn generalizing opened with
  | nil => cases h; exact .balanced .nil
  | append_singleton items item ih =>
    rw [openAfter?_append, Option.bind_eq_bind, Option.bind_eq_some_iff] at h
    obtain ⟨opened', hitems, hitem⟩ := h
    have hbefore := ih hitems
    cases item with
    | opening span => cases hitem; exact hbefore.opening span .nil
    | closing span =>
      -- the innermost open parenthesis gets its partner
      cases hbefore with
      | balanced => cases hitem
      | opening s hopened hinner =>
        cases hitem
        simpa using hopened.append (.group s span hinner .nil)
    | operand x => cases hitem; exact hbefore.append (.cons rfl .nil)
    | binary op => cases hitem; exact hbefore.append (.cons rfl .nil)
    | unary op => cases hitem; exact hbefore.append (.cons rfl .nil)

theorem balanced_of_openAfter? (h : openAfter? [] items = some []) : Balanced items := by
  cases leavesOpen_of_openAfter? h with
  | balanced hb => exact hb

instance (items : List (Item ω)) : Decidable (Balanced items) :=
  decidable_of_iff (openAfter? [] items = some [])
    ⟨balanced_of_openAfter?, fun h => openAfter?_of_balanced h []⟩

/-- `)(` -/
example : ¬ Balanced ([.closing ⟨0, 1⟩, .opening ⟨1, 2⟩] : List (Item Nat)) := by decide

theorem exists_closing_of_openAfter? (h : openAfter? [] items = none) :
    ∃ before span after, items = before ++ .closing span :: after ∧ Balanced before := by
  induction items using List.reverseRecOn with
  | nil => cases h
  | append_singleton items item ih =>
    cases hitems : openAfter? [] items with
    | none =>
      obtain ⟨before, span, after, rfl, hb⟩ := ih hitems
      exact ⟨before, span, after ++ [item], by simp, hb⟩
    | some opened =>
      rw [openAfter?_append, hitems] at h
      cases item with
      | closing span =>
        cases opened with
        | nil => exact ⟨items, span, [], rfl, balanced_of_openAfter? hitems⟩
        | cons s opened => cases h
      | _ => cases h

/-! ## Partners -/

/-- Up to where no parenthesis is missing, each closing one has a partner. -/
theorem exists_partners_of_closing {span : Span}
    (h : openAfter? [] (before ++ [.closing span]) = some opened) (after : List (Item ω)) :
    ∃ i, Partners (before ++ .closing span :: after) i before.length := by
  rw [openAfter?_append, Option.bind_eq_bind, Option.bind_eq_some_iff] at h
  obtain ⟨opened', hbefore, hspan⟩ := h
  cases leavesOpen_of_openAfter? hbefore with
  | balanced => cases hspan
  | @opening s _ front inner _ hinner =>
    exact ⟨front.length, front, s, inner, span, after, by simp, hinner, rfl, rfl⟩

theorem exists_partners_of_opening (front : List (Item ω)) {inner : List (Item ω)}
    (hb : Balanced inner) {span : Span} (h : inner = before ++ .opening span :: after) :
    ∃ j, Partners (front ++ inner) (front ++ before).length j := by
  subst h
  have hall := openAfter?_of_balanced hb []
  cases hafter : openAfter? [] after with
  | none =>
    obtain ⟨inner, closing, after, rfl, hinner⟩ := exists_closing_of_openAfter? hafter
    exact ⟨_, front ++ before, span, inner, closing, after, by simp, hinner, rfl, rfl⟩
  | some rest =>
    -- what follows closes nothing from before, so the parenthesis would stay open
    rw [openAfter?_append, Option.bind_eq_bind, Option.bind_eq_some_iff] at hall
    obtain ⟨opened, -, hspan⟩ := hall
    have hopen := openAfter?_outside (span :: opened) hafter
    have hsame : openAfter? (span :: opened) after = some [] := hspan
    rw [List.nil_append, hsame] at hopen
    simp at hopen

/-! ## Parentheses without a partner -/

theorem exists_of_getElem? {item : Item ω} {j : Nat} (h : items[j]? = some item) :
    ∃ before after, items = before ++ item :: after ∧ before.length = j := by
  obtain ⟨hj, rfl⟩ := List.getElem?_eq_some_iff.mp h
  refine ⟨items.take j, items.drop (j + 1), ?_, by simp [Nat.le_of_lt hj]⟩
  rw [List.getElem_cons_drop, List.take_append_drop]

/-- Where no parenthesis is missing, no closing one is alone. -/
theorem not_loneClosing (h : openAfter? [] before = some opened) {j : Nat} (hj : j < before.length)
    (span : Span) : ¬ LoneClosing (before ++ after) j span := by
  intro hlone
  have hfound := hlone.found
  rw [List.getElem?_append_left hj] at hfound
  obtain ⟨front, back, rfl, rfl⟩ := exists_of_getElem? hfound
  rw [List.append_cons, openAfter?_append, Option.bind_eq_bind, Option.bind_eq_some_iff] at h
  obtain ⟨opened', hfront, -⟩ := h
  obtain ⟨i, hi⟩ := exists_partners_of_closing hfront (back ++ after)
  apply hlone.alone i
  simpa using hi

theorem loneClosing_of_balanced (h : Balanced before) (span : Span) :
    LoneClosing (before ++ .closing span :: after) before.length span where
  found := by simp
  alone := by
    intro i hi
    obtain ⟨front, opening, inner, closing, back, hitems, hinner, -, hlength⟩ := hi
    have hsplit : before ++ .closing span :: after =
        (front ++ .opening opening :: inner) ++ .closing closing :: back := by simpa using hitems
    obtain ⟨rfl, -⟩ := List.append_inj hsplit hlength.symm
    have hopen := openAfter?_of_balanced h []
    rw [openAfter?_append, Option.bind_eq_bind, Option.bind_eq_some_iff] at hopen
    obtain ⟨opened, -, hinside⟩ := hopen
    have hleft : openAfter? opened (.opening opening :: inner) = some (opening :: opened) :=
      openAfter?_of_balanced hinner _
    rw [hleft] at hinside
    cases hinside

theorem loneOpening_of_balanced (h : Balanced after) (span : Span) :
    LoneOpening (before ++ .opening span :: after) before.length span where
  found := by simp
  alone := by
    intro j hj
    obtain ⟨front, opening, inner, closing, back, hitems, hinner, hlength, -⟩ := hj
    obtain ⟨rfl, hrest⟩ := List.append_inj hitems hlength.symm
    obtain rfl := (List.cons.inj hrest).2
    have hopen := openAfter?_of_balanced h []
    simp [openAfter?_of_balanced hinner, Item.openAfter?] at hopen

/-- After the last opening parenthesis without a partner, all have one. -/
theorem not_loneOpening (h : Balanced after) {i : Nat} (hi : before.length ≤ i) (span : Span) :
    ¬ LoneOpening (before ++ after) i span := by
  intro hlone
  have hfound := hlone.found
  rw [List.getElem?_append_right hi] at hfound
  obtain ⟨front, back, hafter, hlength⟩ := exists_of_getElem? hfound
  obtain ⟨j, hj⟩ := exists_partners_of_opening before h hafter
  rw [List.length_append, hlength, Nat.add_sub_cancel' hi] at hj
  exact hlone.alone j hj

end

/-! ## Reordering -/

section
variable {opened : List Span} {items before : List (Item ω)}

theorem release_append (waiting : List Operator) (xs ys : List (Postfix ω)) :
    release waiting (xs ++ ys) = release waiting xs ++ ys := (List.append_assoc ..).symm

/-- Reading a part of the items leaves the groups that its parentheses leave open. -/
theorem toPostfixFrom_append (waiting : List Operator) (groups : List (Span × List Operator))
    (h : openAfter? (groups.map (·.1)) before = some opened) :
    ∃ out waiting' groups', groups'.map (·.1) = opened ∧
      ∀ rest, toPostfixFrom waiting groups (before ++ rest) =
        (out ++ ·) <$> toPostfixFrom waiting' groups' rest := by
  induction before generalizing waiting groups with
  | nil =>
    cases h
    exact ⟨[], waiting, groups, rfl, fun rest => by simp⟩
  | cons item items ih =>
    cases item with
    | operand x =>
      obtain ⟨out, waiting', groups', hgroups, hrest⟩ := ih waiting groups h
      refine ⟨.operand x :: out, waiting', groups', hgroups, fun rest => ?_⟩
      simp only [List.cons_append, toPostfixFrom, hrest, Functor.map_map]
    | unary op => exact ih (.unary op :: waiting) groups h
    | binary op =>
      obtain ⟨out, waiting', groups', hgroups, hrest⟩ :=
        ih (.binary op :: waiting.dropWhile (·.precedes (.binary op))) groups h
      refine ⟨release (waiting.takeWhile (·.precedes (.binary op))) out, waiting', groups', hgroups,
        fun rest => ?_⟩
      simp only [List.cons_append, toPostfixFrom, hrest, Functor.map_map, release_append]
    | opening span => exact ih [] ((span, waiting) :: groups) h
    | closing span =>
      cases groups with
      | nil => cases h
      | cons group groups =>
        obtain ⟨out, waiting', groups', hgroups, hrest⟩ := ih group.2 groups h
        refine ⟨release waiting out, waiting', groups', hgroups, fun rest => ?_⟩
        simp only [List.cons_append, toPostfixFrom, hrest, Functor.map_map, release_append]

theorem exists_toPostfix_of_balanced (h : Balanced items) :
    ∃ ordered, toPostfix items = .ok ordered := by
  obtain ⟨out, waiting, groups, hgroups, hrest⟩ :=
    toPostfixFrom_append [] [] (openAfter?_of_balanced h [])
  obtain rfl := List.map_eq_nil_iff.mp hgroups
  have hend := hrest []
  rw [List.append_nil] at hend
  exact ⟨_, hend⟩

theorem toPostfix_of_closing (h : Balanced before) (span : Span) (after : List (Item ω)) :
    toPostfix (before ++ .closing span :: after) = .error span := by
  obtain ⟨out, waiting, groups, hgroups, hrest⟩ :=
    toPostfixFrom_append [] [] (openAfter?_of_balanced h [])
  obtain rfl := List.map_eq_nil_iff.mp hgroups
  exact hrest (.closing span :: after)

theorem toPostfix_of_opening {span : Span} (h : openAfter? [] items = some (span :: opened)) :
    toPostfix items = .error span := by
  obtain ⟨out, waiting, groups, hgroups, hrest⟩ := toPostfixFrom_append [] [] h
  obtain ⟨group, groups, rfl, rfl, -⟩ := List.map_eq_cons_iff.mp hgroups
  have hend := hrest []
  rw [List.append_nil] at hend
  exact hend

/-- Items end balanced, or have a closing parenthesis that closes nothing, or leave one open. -/
theorem toPostfix_cases (items : List (Item ω)) :
    (Balanced items ∧ ∃ ordered, toPostfix items = .ok ordered) ∨
      (∃ before span after, items = before ++ .closing span :: after ∧ Balanced before ∧
        toPostfix items = .error span) ∨
      ∃ opened before span after, items = before ++ .opening span :: after ∧
        openAfter? [] items = some opened ∧ Balanced after ∧ toPostfix items = .error span := by
  cases h : openAfter? [] items with
  | none =>
    obtain ⟨before, span, after, rfl, hb⟩ := exists_closing_of_openAfter? h
    exact .inr (.inl ⟨before, span, after, rfl, hb, toPostfix_of_closing hb span after⟩)
  | some opened =>
    cases leavesOpen_of_openAfter? h with
    | balanced hb => exact .inl ⟨hb, exists_toPostfix_of_balanced hb⟩
    | @opening span opened before after _ hb =>
      exact .inr (.inr ⟨_, before, span, after, rfl, rfl, hb, toPostfix_of_opening h⟩)

end

/-! ## The order of operands -/

def Item.operand? : Item ω → Option ω
  | .operand x => some x
  | .binary _ | .unary _ | .opening _ | .closing _ => none

def Postfix.operand? : Postfix ω → Option ω
  | .operand x => some x
  | .operator _ => none

@[simp] theorem operands_release (waiting : List Operator) (rest : List (Postfix ω)) :
    (release waiting rest).filterMap Postfix.operand? = rest.filterMap Postfix.operand? := by
  simp [release, Postfix.operand?, Function.comp_def]

theorem operands_toPostfixFrom {waiting : List Operator} {groups : List (Span × List Operator)}
    {items : List (Item ω)} {ordered : List (Postfix ω)}
    (h : toPostfixFrom waiting groups items = .ok ordered) :
    ordered.filterMap Postfix.operand? = items.filterMap Item.operand? := by
  induction items generalizing waiting groups ordered with
  | nil =>
    cases groups with
    | nil => cases h; simp
    | cons group groups => cases h
  | cons item items ih =>
    cases item with
    | operand x =>
      obtain ⟨rest, hrest, rfl⟩ := map_eq_ok_iff.mp h
      simp [Item.operand?, Postfix.operand?, ih hrest]
    | unary op => exact ih h
    | binary op =>
      obtain ⟨rest, hrest, rfl⟩ := map_eq_ok_iff.mp h
      rw [operands_release, ih hrest]
      rfl
    | opening span => exact ih h
    | closing span =>
      cases groups with
      | nil => cases h
      | cons group groups =>
        obtain ⟨rest, hrest, rfl⟩ := map_eq_ok_iff.mp h
        rw [operands_release, ih hrest]
        rfl

/-! ## Balanced items and others -/

section
variable {items : List (Item ω)}

theorem exists_toPostfix_iff : (∃ ordered, toPostfix items = .ok ordered) ↔ Balanced items := by
  constructor
  · intro h
    obtain ⟨ordered, hok⟩ := h
    rcases toPostfix_cases items with ⟨hb, -⟩ | ⟨_, _, _, -, -, herror⟩ |
      ⟨_, _, _, _, -, -, -, herror⟩
    · exact hb
    · rw [hok] at herror; cases herror
    · rw [hok] at herror; cases herror
  · exact exists_toPostfix_of_balanced

/-- Where no parenthesis is missing to the end, no closing one is alone. -/
theorem forall_not_loneClosing {opened : List Span} (h : openAfter? [] items = some opened)
    (j : Nat) (span : Span) : ¬ LoneClosing items j span := by
  intro hlone
  obtain ⟨hj, -⟩ := List.getElem?_eq_some_iff.mp hlone.found
  have hnone : ¬ LoneClosing (items ++ []) j span := not_loneClosing h hj span
  rw [List.append_nil] at hnone
  exact hnone hlone

theorem lone_of_toPostfix_eq_error {span : Span} (h : toPostfix items = .error span) :
    (∃ j, LoneClosing items j span ∧ ∀ j' < j, ∀ s, ¬ LoneClosing items j' s) ∨
      (∀ j s, ¬ LoneClosing items j s) ∧
        ∃ i, LoneOpening items i span ∧ ∀ i' > i, ∀ s, ¬ LoneOpening items i' s := by
  rcases toPostfix_cases items with ⟨-, ordered, hok⟩ | ⟨before, s, after, rfl, hb, herror⟩ |
    ⟨opened, before, s, after, rfl, hopened, hb, herror⟩
  · rw [h] at hok; cases hok
  · rw [h] at herror; cases herror
    refine .inl ⟨before.length, loneClosing_of_balanced hb span, fun j' hj' s => ?_⟩
    exact not_loneClosing (openAfter?_of_balanced hb []) hj' s
  · rw [h] at herror; cases herror
    refine .inr ⟨forall_not_loneClosing hopened, before.length, loneOpening_of_balanced hb span,
      fun i hi s => ?_⟩
    rw [List.append_cons]
    exact not_loneOpening hb (by simp; omega) s

end

/-- Exactly balanced items can be reordered: nothing is lost or added, and the operands keep their
order.  Other items fail at the first closing parenthesis without a partner or, if there is none, at
the last opening one without a partner. -/
theorem toPostfix_balanced (items : List (Item ω)) :
    ((∃ ordered, toPostfix items = .ok ordered) ↔ Balanced items) ∧
    (∀ ordered, toPostfix items = .ok ordered →
      ordered.Perm (items.filterMap Item.postfix?) ∧
        ordered.filterMap Postfix.operand? = items.filterMap Item.operand?) ∧
    ∀ span, toPostfix items = .error span →
      (∃ j, LoneClosing items j span ∧ ∀ j' < j, ∀ s, ¬ LoneClosing items j' s) ∨
        (∀ j s, ¬ LoneClosing items j s) ∧
          ∃ i, LoneOpening items i span ∧ ∀ i' > i, ∀ s, ¬ LoneOpening items i' s :=
  ⟨exists_toPostfix_iff, fun _ h => ⟨perm_toPostfix h, operands_toPostfixFrom h⟩,
    fun _ h => lone_of_toPostfix_eq_error h⟩

end MatrixScript
