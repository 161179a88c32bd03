import MatrixScript.Proofs.MovedTokens
import MatrixScript.Proofs.TokensRead

/-!
# Nodes of a program

A node is a part of a program that is read from a part of its text: every node yields some of the
tokens, from the first one its span begins with to the last one it ends with, and its parts lie
inside it one after the other.
-/

namespace MatrixScript

open Parse

/-! ## Nodes and their parts -/

inductive Node
  | declaration (d : Declaration)
  | call (c : Call)
  | expression (ends : Ending) (e : Expression)
  | number (n : Located Int64)
  | symbol (s : Located String)
  | row (r : Row)
  | matrix (m : MatrixLiteral)

def Operand.node : Operand → Node
  | .number n => .number n
  | .symbol s => .symbol s
  | .call c => .call c
  | .matrix m => .matrix m

def Statement.node : Statement → Node
  | .declaration d => .declaration d
  | .call c => .call c

def Item.node? : Item Operand → Option Node
  | .operand x => some x.node
  | .binary _ | .unary _ | .opening _ | .closing _ => none

namespace Node

def span : Node → Span
  | .declaration d => d.span
  | .call c => c.span
  | .expression _ e => e.span
  | .number n => n.span
  | .symbol s => s.span
  | .row r => r.span
  | .matrix m => m.span

def children : Node → List Node
  | .declaration d => [.symbol d.name, .expression .semicolon d.value]
  | .call c => .symbol c.name :: c.args.map (.expression .argument)
  | .expression _ e => e.items.filterMap Item.node?
  | .number _ | .symbol _ => []
  | .row r => r.items.map (.expression .element)
  | .matrix m => m.items.map .row

/-- The spans of the children, for an expression with those of its operators and parentheses. -/
def parts : Node → List Span
  | .expression _ e => e.items.map Item.span
  | n => n.children.map span

def relocate (g : Nat → Nat) : Node → Node
  | .declaration d =>
    .declaration ⟨d.name.relocate g, MatrixScript.relocate g d.value, d.span.relocate g⟩
  | .call c => .call (recastCall g id c)
  | .expression ends e => .expression ends (MatrixScript.relocate g e)
  | .number n => .number (n.relocate g)
  | .symbol s => .symbol (s.relocate g)
  | .row r => .row (recastRow g id r)
  | .matrix m => .matrix (recastMatrix g id m)

end Node

inductive NodeOf (script : List Statement) : Node → Prop
  | statement {s : Statement} (h : s ∈ script) : NodeOf script s.node
  | child {n m : Node} (h : NodeOf script n) (hm : m ∈ n.children) : NodeOf script m

theorem span_node (x : Operand) : x.node.span = x.span := by
  cases x <;> rfl

theorem spans_children_sublist (n : Node) : (n.children.map Node.span).Sublist n.parts := by
  cases n with
  | expression ends e =>
    change ((e.items.filterMap Item.node?).map Node.span).Sublist (e.items.map Item.span)
    induction e.items with
    | nil => exact .slnil
    | cons item items ih =>
      cases item with
      | operand x =>
        have hcons : (Item.operand x :: items).filterMap Item.node? =
            x.node :: items.filterMap Item.node? := List.filterMap_cons_some rfl
        rw [hcons, List.map_cons, List.map_cons, span_node]
        exact ih.cons_cons _
      | binary op => exact ih.cons _
      | unary op => exact ih.cons _
      | opening span => exact ih.cons _
      | closing span => exact ih.cons _
  | declaration d => exact .refl _
  | call c => exact .refl _
  | number n => exact .refl _
  | symbol s => exact .refl _
  | row r => exact .refl _
  | matrix m => exact .refl _

/-! ## The tokens of a node -/

inductive SymbolYields : Located String → List Token → Prop
  | mk {t : Token} (h : t.kind = .name) : SymbolYields ⟨t.lexeme, t.span⟩ [t]

def Node.Yields : Node → List Token → Prop
  | .declaration d => DeclarationYields d
  | .call c => CallYields c
  | .expression ends e => ExpressionYields ends e
  | .number n => NumeralYields n
  | .symbol s => SymbolYields s
  | .row r => RowYields r
  | .matrix m => MatrixYields m

theorem OperandYields.node {x : Operand} {ts : List Token} (h : OperandYields x ts) :
    x.node.Yields ts := by
  cases h with
  | number h => exact h
  | symbol h => exact .mk h
  | call h => exact h
  | matrix h => exact h

structure Covers (s : Span) (ts : List Token) : Prop where
  exists_ends : ∃ first last, ts.head? = some first ∧ ts.getLast? = some last ∧
    s = first.span.through last.span

theorem covers_concat (t : Token) (ts : List Token) (last : Token) :
    Covers (t.span.through last.span) (t :: (ts ++ [last])) :=
  ⟨t, last, rfl, by rw [← List.cons_append, List.getLast?_concat], rfl⟩

theorem Token.covers (t : Token) : Covers t.span [t] := ⟨t, t, rfl, rfl, rfl⟩

theorem NumeralYields.covers {n : Located Int64} {ts : List Token} (h : NumeralYields n ts) :
    Covers n.span ts := by
  cases h with
  | plain => exact Token.covers _
  | signed => exact covers_concat _ [] _

theorem CallYields.covers {c : Call} {ts : List Token} (h : CallYields c ts) : Covers c.span ts := by
  obtain @⟨name, opening, closing, args, ts, -, -, -, -⟩ := h
  exact covers_concat _ (opening :: ts) _

theorem BracketedYields.covers {β : Type} {R : β → List Token → Prop} {m : Bracketed β}
    {ts : List Token} (h : BracketedYields R m ts) : Covers m.span ts := by
  obtain ⟨-, -, -⟩ := h
  exact covers_concat _ _ _

theorem OperandYields.covers {x : Operand} {ts : List Token} (h : OperandYields x ts) :
    Covers x.span ts := by
  cases h with
  | number h => exact h.covers
  | symbol => exact Token.covers _
  | call h => exact h.covers
  | matrix h => exact h.covers

theorem Covers.append {s s' : Span} {ts us : List Token} (h : Covers s ts) (h' : Covers s' us) :
    Covers (s.through s') (ts ++ us) := by
  obtain ⟨first, last, hfirst, hlast, rfl⟩ := h
  obtain ⟨first', last', hfirst', hlast', rfl⟩ := h'
  exact ⟨first, last', by rw [List.head?_append, hfirst]; rfl,
    by rw [List.getLast?_append, hlast']; rfl, rfl⟩

theorem ItemsYield.of_cons {ends : Ending} {depth : Nat} {slot : Slot} {item : Item Operand}
    {items : List (Item Operand)} {ts : List Token}
    (h : ItemsYield ends depth slot (item :: items) ts) :
    ∃ us vs, ts = us ++ vs ∧ Covers item.span us ∧ (∀ x, item = .operand x → OperandYields x us) ∧
      ∃ depth' slot', ItemsYield ends depth' slot' items vs := by
  cases h with
  | operand _ _ hx h =>
    exact ⟨_, _, rfl, hx.covers, fun x heq => Item.operand.inj heq ▸ hx, _, _, h⟩
  | @opening _ _ _ t _ ts _ _ h =>
    exact ⟨[t], ts, rfl, t.covers, fun x heq => by (cases heq), _, _, h⟩
  | @closing _ _ _ t _ ts _ _ h =>
    exact ⟨[t], ts, rfl, t.covers, fun x heq => by (cases heq), _, _, h⟩
  | @unary _ _ _ _ t _ ts _ _ _ h =>
    exact ⟨[t], ts, rfl, t.covers, fun x heq => by (cases heq), _, _, h⟩
  | @binary _ _ _ _ t _ ts _ _ h =>
    exact ⟨[t], ts, rfl, t.covers, fun x heq => by (cases heq), _, _, h⟩

theorem ItemsYield.covers {ends : Ending} {depth : Nat} {slot : Slot} {first : Item Operand}
    {items : List (Item Operand)} {ts : List Token}
    (h : ItemsYield ends depth slot (first :: items) ts) :
    Covers (first.span.through (items.getLastD first).span) ts := by
  induction items generalizing first depth slot ts with
  | nil =>
    obtain ⟨us, vs, rfl, hus, -, _, _, hvs⟩ := h.of_cons
    cases hvs
    rw [List.append_nil]
    exact hus
  | cons item items ih =>
    obtain ⟨us, vs, rfl, hus, -, _, _, hvs⟩ := h.of_cons
    have hcovers : Covers (first.span.through (item.span.through (items.getLastD item).span))
        (us ++ vs) := hus.append (ih hvs)
    rwa [List.getLastD_cons]

theorem Node.Yields.covers {n : Node} {ts : List Token} (h : n.Yields ts) : Covers n.span ts := by
  cases n with
  | declaration d =>
    obtain @⟨keyword, name, assign, semicolon, value, ts, -, -, -, -, -⟩ := h
    exact covers_concat _ (name :: assign :: ts) _
  | call c => exact CallYields.covers h
  | expression ends e =>
    obtain ⟨h⟩ := h
    exact h.covers
  | number n => exact NumeralYields.covers h
  | symbol s =>
    obtain ⟨-⟩ := h
    exact Token.covers _
  | row r => exact BracketedYields.covers h
  | matrix m => exact BracketedYields.covers h

/-! ## Children -/

theorem Listed.exists_of_mem {β : Type} {R : β → List Token → Prop} {ys : List β} {ts : List Token}
    (h : Listed R ys ts) {y : β} (hy : y ∈ ys) : ∃ us, us <:+: ts ∧ R y us := by
  induction h with
  | nil => cases hy
  | singleton h =>
    obtain rfl := List.mem_singleton.mp hy
    exact ⟨_, List.infix_rfl, h⟩
  | @cons y' z ys ts us comma h hc _ ih =>
    rcases List.mem_cons.mp hy with rfl | hy
    · exact ⟨ts, (List.prefix_append ..).isInfix, h⟩
    · obtain ⟨vs, hvs, hR⟩ := ih hy
      exact ⟨vs, hvs.trans ((List.suffix_cons comma us).trans (List.suffix_append ..)).isInfix, hR⟩

theorem ItemsYield.exists_of_mem {ends : Ending} {depth : Nat} {slot : Slot}
    {items : List (Item Operand)} {ts : List Token} (h : ItemsYield ends depth slot items ts)
    {x : Operand} (hx : .operand x ∈ items) : ∃ us, us <:+: ts ∧ OperandYields x us := by
  induction items generalizing depth slot ts with
  | nil => cases hx
  | cons item items ih =>
    obtain ⟨us, vs, rfl, -, hitem, _, _, hvs⟩ := h.of_cons
    rcases List.mem_cons.mp hx with rfl | hx
    · exact ⟨us, (List.prefix_append ..).isInfix, hitem x rfl⟩
    · obtain ⟨ws, hws, hyields⟩ := ih hvs hx
      exact ⟨ws, hws.trans (List.suffix_append ..).isInfix, hyields⟩

theorem infix_concat {t last : Token} {ts us : List Token} (h : us <:+: ts) :
    us <:+: t :: (ts ++ [last]) :=
  h.trans ((List.prefix_append ts [last]).isInfix.trans (List.suffix_cons ..).isInfix)

theorem BracketedYields.exists_of_mem {β : Type} {R : β → List Token → Prop} {m : Bracketed β}
    {ts : List Token} (h : BracketedYields R m ts) {y : β} (hy : y ∈ m.items) :
    ∃ us, us <:+: ts ∧ R y us := by
  obtain ⟨-, -, hys⟩ := h
  obtain ⟨us, hus, hR⟩ := hys.exists_of_mem hy
  exact ⟨us, infix_concat hus, hR⟩

/-- A child yields some of the tokens of its parent. -/
theorem Node.Yields.child {n m : Node} {ts : List Token} (h : n.Yields ts) (hm : m ∈ n.children) :
    ∃ us, us <:+: ts ∧ m.Yields us := by
  cases n with
  | declaration d =>
    obtain @⟨keyword, name, assign, semicolon, value, ts, -, hn, -, -, hvalue⟩ := h
    rcases List.mem_cons.mp hm with rfl | hm
    · exact ⟨[name], ⟨[keyword], assign :: (ts ++ [semicolon]), rfl⟩, .mk hn⟩
    · obtain rfl := List.mem_singleton.mp hm
      exact ⟨ts, ⟨[keyword, name, assign], [semicolon], by simp⟩, hvalue⟩
  | call c =>
    obtain @⟨name, opening, closing, args, ts, hn, -, -, hargs⟩ := h
    rcases List.mem_cons.mp hm with rfl | hm
    · exact ⟨[name], ⟨[], opening :: (ts ++ [closing]), rfl⟩, .mk hn⟩
    · obtain ⟨e, he, rfl⟩ := List.mem_map.mp hm
      obtain ⟨us, hus, hyields⟩ := hargs.exists_of_mem he
      exact ⟨us, (infix_concat hus).trans (List.suffix_cons ..).isInfix, hyields⟩
  | expression ends e =>
    obtain ⟨h⟩ := h
    obtain ⟨item, hitem, hnode⟩ := List.mem_filterMap.mp hm
    cases item with
    | operand x =>
      cases hnode
      obtain ⟨us, hus, hyields⟩ := h.exists_of_mem hitem
      exact ⟨us, hus, hyields.node⟩
    | binary op => cases hnode
    | unary op => cases hnode
    | opening span => cases hnode
    | closing span => cases hnode
  | number n => cases hm
  | symbol s => cases hm
  | row r =>
    obtain ⟨e, he, rfl⟩ := List.mem_map.mp hm
    exact BracketedYields.exists_of_mem h he
  | matrix m =>
    obtain ⟨row, hrow, rfl⟩ := List.mem_map.mp hm
    exact BracketedYields.exists_of_mem h hrow

theorem ScriptYields.exists_of_mem {script : List Statement} {ts : List Token}
    (h : ScriptYields script ts) {s : Statement} (hs : s ∈ script) :
    ∃ us, us <:+: ts ∧ s.node.Yields us := by
  induction h with
  | nil => cases hs
  | @skip script ts semicolon _ _ ih =>
    obtain ⟨us, hus, hyields⟩ := ih hs
    exact ⟨us, hus.trans (List.suffix_cons ..).isInfix, hyields⟩
  | @cons s' script ts us hs' _ ih =>
    rcases List.mem_cons.mp hs with rfl | hs
    · cases hs' with
      | declaration h => exact ⟨ts, (List.prefix_append ..).isInfix, h⟩
      | @call c ts semicolon h _ =>
        exact ⟨ts, ((List.prefix_append ..).trans (List.prefix_append ..)).isInfix, h⟩
    · obtain ⟨vs, hvs, hyields⟩ := ih hs
      exact ⟨vs, hvs.trans (List.suffix_append ..).isInfix, hyields⟩

theorem NodeOf.yields {script : List Statement} {ts : List Token} (hscript : ScriptYields script ts)
    {n : Node} (h : NodeOf script n) : ∃ us, us <:+: ts ∧ n.Yields us := by
  induction h with
  | statement hs => exact hscript.exists_of_mem hs
  | child _ hm ih =>
    obtain ⟨us, hus, hyields⟩ := ih
    obtain ⟨vs, hvs, hchild⟩ := hyields.child hm
    exact ⟨vs, hvs.trans hus, hchild⟩

/-! ## Parts in order -/

section
variable {start stop : Nat} {spans : List Span} {ts : List Token}

theorem Covers.inOrder {s : Span} (h : Covers s ts)
    (hts : InOrder start (ts.map (·.span)) stop) :
    start ≤ s.start ∧ s.stop ≤ stop ∧ InOrder s.start (ts.map (·.span)) s.stop := by
  obtain ⟨first, last, hfirst, hlast, rfl⟩ := h
  obtain ⟨rest, rfl⟩ := List.head?_eq_some_iff.mp hfirst
  rw [List.getLast?_cons, ← List.getLastD_eq_getLast?] at hlast
  obtain rfl := Option.some.inj hlast
  obtain ⟨hinner, hle⟩ := hts.getLastD
  rw [getLastD_map Token.span] at hinner hle
  exact ⟨hts.1, hle, hinner⟩

/-- The spans are covered by tokens one after the other, with other tokens between them. -/
inductive Blocks : List Span → List Token → Prop
  | nil {ts : List Token} : Blocks [] ts
  | skip {spans : List Span} {t : Token} {ts : List Token} (h : Blocks spans ts) :
    Blocks spans (t :: ts)
  | cons {s : Span} {spans : List Span} {ts us : List Token} (hs : Covers s ts)
      (h : Blocks spans us) : Blocks (s :: spans) (ts ++ us)

theorem Blocks.inOrder (h : Blocks spans ts) (hts : InOrder start (ts.map (·.span)) stop) :
    InOrder start spans stop := by
  induction h generalizing start with
  | nil => exact hts.le
  | skip _ ih => exact (ih hts.2.2).mono_left (hts.1.trans hts.2.1)
  | cons hs _ ih =>
    rw [List.map_append] at hts
    obtain ⟨mid, hfirst, hrest⟩ := hts.append
    obtain ⟨hstart, hstop, hinner⟩ := hs.inOrder hfirst
    exact ⟨hstart, hinner.le, (ih hrest).mono_left hstop⟩

theorem Blocks.append (h : Blocks spans ts) (us : List Token) : Blocks spans (ts ++ us) := by
  induction h with
  | nil => exact .nil
  | skip _ ih => exact .skip ih
  | cons hs _ ih =>
    rw [List.append_assoc]
    exact .cons hs ih

theorem Blocks.prepend (us : List Token) (h : Blocks spans ts) : Blocks spans (us ++ ts) := by
  induction us with
  | nil => exact h
  | cons t us ih => exact .skip ih

theorem Blocks.token (t : Token) (h : Blocks spans ts) : Blocks (t.span :: spans) (t :: ts) :=
  .cons t.covers h

theorem Listed.blocks {β : Type} {R : β → List Token → Prop} {ys : List β} (h : Listed R ys ts)
    {f : β → Span} (hR : ∀ y us, R y us → Covers (f y) us) : Blocks (ys.map f) ts := by
  induction h with
  | nil => exact .nil
  | @singleton y ts h =>
    have hblocks : Blocks [f y] (ts ++ []) := .cons (hR y ts h) .nil
    rwa [List.append_nil] at hblocks
  | cons h _ _ ih => exact .cons (hR _ _ h) (.skip ih)

theorem BracketedYields.blocks {β : Type} {R : β → List Token → Prop} {m : Bracketed β}
    (h : BracketedYields R m ts) {f : β → Span} (hR : ∀ y us, R y us → Covers (f y) us) :
    Blocks (m.items.map f) ts := by
  obtain ⟨-, -, hys⟩ := h
  exact .skip ((hys.blocks hR).append _)

theorem ItemsYield.blocks {ends : Ending} {depth : Nat} {slot : Slot} {items : List (Item Operand)}
    (h : ItemsYield ends depth slot items ts) : Blocks (items.map Item.span) ts := by
  induction items generalizing depth slot ts with
  | nil => exact .nil
  | cons item items ih =>
    obtain ⟨us, vs, rfl, hus, -, _, _, hvs⟩ := h.of_cons
    exact .cons hus (ih hvs)

theorem Node.Yields.blocks {n : Node} (h : n.Yields ts) : Blocks n.parts ts := by
  cases n with
  | declaration d =>
    obtain @⟨keyword, name, assign, semicolon, value, ts, -, -, -, -, hvalue⟩ := h
    have hcovers : Covers value.span ts :=
      Node.Yields.covers (n := .expression .semicolon value) hvalue
    exact .skip (.token name (.skip (.cons hcovers .nil)))
  | call c =>
    obtain @⟨name, opening, closing, args, ts, -, -, -, hargs⟩ := h
    have hblocks : Blocks (args.map fun e => e.span) ts :=
      hargs.blocks fun e us he => Node.Yields.covers (n := .expression .argument e) he
    change Blocks (name.span :: (args.map (.expression .argument)).map Node.span) _
    rw [List.map_map]
    exact .token name (.skip (hblocks.append _))
  | expression ends e =>
    obtain ⟨h⟩ := h
    exact h.blocks
  | number n => exact .nil
  | symbol s => exact .nil
  | row r =>
    change Blocks ((r.items.map (.expression .element)).map Node.span) ts
    rw [List.map_map]
    exact BracketedYields.blocks h fun e us he =>
      Node.Yields.covers (n := .expression .element e) he
  | matrix m =>
    change Blocks ((m.items.map .row).map Node.span) ts
    rw [List.map_map]
    exact BracketedYields.blocks h fun row us hrow => Node.Yields.covers (n := .row row) hrow

theorem StatementYields.exists_covers {s : Statement} (h : StatementYields s ts) :
    ∃ us vs, ts = us ++ vs ∧ Covers s.span us := by
  cases h with
  | @declaration d ts h =>
    exact ⟨ts, [], (List.append_nil ts).symm, Node.Yields.covers (n := .declaration d) h⟩
  | call h => exact ⟨_, _, rfl, h.covers⟩

theorem ScriptYields.blocks {script : List Statement} (h : ScriptYields script ts) :
    Blocks (script.map Statement.span) ts := by
  induction h with
  | nil => exact .nil
  | skip _ _ ih => exact .skip ih
  | cons hs _ ih =>
    obtain ⟨us, vs, rfl, hus⟩ := hs.exists_covers
    rw [List.append_assoc]
    exact .cons hus (ih.prepend vs)

end

theorem inOrder_place (start : Nat) (ws : List Word) :
    InOrder start ((place start ws).map (·.span)) (start + wordsSize ws) := by
  induction ws generalizing start with
  | nil => exact Nat.le_refl start
  | cons w ws ih =>
    have hsize : start + wordsSize (w :: ws) = start + w.size + wordsSize ws := by
      simp [wordsSize, Nat.add_assoc]
    rw [hsize]
    exact ⟨Nat.le_refl start, Nat.le_add_right _ _, ih (start + w.size)⟩

end MatrixScript
