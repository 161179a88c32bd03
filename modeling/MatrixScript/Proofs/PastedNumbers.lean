import MatrixScript.Proofs.LawfulSessions
import MatrixScript.Proofs.LongDeclarations
import MatrixScript.Proofs.OperatorOutcomes
import MatrixScript.Proofs.ShownWords

/-!
# Pasted numbers

What is printed for a number can be put back into a script as an expression.  It is read up to the
semicolon, and its value is that number in the form in which it was printed.
-/

namespace MatrixScript

open Parse

/-! ## Words before a semicolon -/

section
variable {text tail : String} {vs : List Word}

def StartsAtSemicolon (tail : String) : Prop := tail = "" ∨ ∃ more, tail = ";" ++ more

theorem StartsAtSemicolon.kind_head? (h : StartsAtSemicolon tail) :
    ∀ w ∈ (wordsOf tail).head?, w.kind = .semicolon := by
  intro w hw
  obtain ⟨ws, hws⟩ := List.head?_eq_some_iff.mp hw
  obtain ⟨c, rest, -, rfl⟩ : w.Valid := valid_of_mem_wordsOf w (hws ▸ List.mem_cons_self)
  have hspelling : c :: (rest ++ spelling ws) = tail.toList := by
    rw [← spelling_wordsOf, hws, spelling_ofChars]
    rfl
  rcases h with rfl | ⟨more, rfl⟩
  · cases hspelling
  · obtain ⟨rfl, -⟩ := List.cons.inj (hspelling.trans String.toList_append)
    rfl

/-- Words keep apart from a text that begins with a semicolon. -/
theorem solid_tokenize_before (htext : text.toList = spelling vs ++ tail.toList) (hvs : Spaced vs)
    (h : StartsAtSemicolon tail) :
    solid (tokenize text) = solid (place 0 vs) ++
      (solid (tokenize tail)).map (Token.relocate (· + wordsSize vs)) := by
  have hspelling : text.toList = spelling (vs ++ wordsOf tail) := by
    rw [htext, spelling_append, spelling_wordsOf]
  have hvalid : ∀ w ∈ vs ++ wordsOf tail, w.Valid :=
    List.forall_mem_append.mpr ⟨hvs.valid, valid_of_mem_wordsOf⟩
  have hafter : (wordsOf tail).IsChain Word.Breaks :=
    (isChain_wordsOf tail).imp fun v w hvw hgoes => absurd hgoes hvw
  have hchain : (vs ++ wordsOf tail).IsChain Word.Breaks := by
    refine List.isChain_append.mpr ⟨hvs.breaks, hafter, fun v hv w hw => ?_⟩
    refine (hvs.valid v (List.mem_of_getLast? hv)).breaks_of_apart
      (valid_of_mem_wordsOf w (List.mem_of_mem_head? hw)) fun _ => ?_
    rw [Word.isLetters, h.kind_head? w hw]
    exact Bool.false_ne_true
  rw [solid_tokenize hspelling hvalid hchain, place_append, place_add, solid_append,
    solid_relocate, ← tokenize_eq_place]

theorem solid_place {start : Nat} (h : ∀ v ∈ vs, v.isBlank = false) :
    solid (place start vs) = place start vs := by
  induction vs generalizing start with
  | nil => rfl
  | cons v vs ih =>
    obtain ⟨hv, hvs⟩ := List.forall_mem_cons.mp h
    rw [place, solid_cons (by exact hv), ih hvs]

theorem StartsAtSemicolon.stops (h : StartsAtSemicolon tail) (g : Nat → Nat) :
    Stops .semicolon ((solid (tokenize tail)).map (Token.relocate g)) := by
  have hhead := h.kind_head?
  rw [tokenize_eq_place]
  cases hws : wordsOf tail with
  | nil => exact fun t ht => by cases ht
  | cons w ws =>
    have hk : (w.tokenAt 0).kind = .semicolon := hhead w (by rw [hws]; rfl)
    rw [place, solid_cons (by rw [Token.isBlank, hk]; rfl)]
    rintro t ⟨⟩
    exact congrArg (Ending.stopsAt .semicolon) hk

end

/-! ## Reading an expression -/

theorem Parse.exists_expression_eq {text : String} {ends : Ending} {e : Expression} {c : Cursor}
    {ts rest : List Token} (h : ExpressionYields ends e ts) (hc : c.Sees text (ts ++ rest))
    (hrest : Stops ends rest) : ∃ d, expression ends c = .ok e d ∧ d.Sees text rest := by
  refine (rereads_expression h).exists_eq (fun e' he' => ?_) hc hrest
  rwa [View.expression_exact, View.expression_exact] at he'

/-! ## Numbers -/

/-- The tokens of a printed number are a literal of that number. -/
theorem exists_numeralYields (start : Nat) (n : Int64) :
    ∃ m : Located Int64, NumeralYields m (place start (numberWords n)) ∧ m.value = n := by
  have hmagnitude (start : Nat) :
      ((Word.digits n.toInt.natAbs).tokenAt start).magnitude = n.toInt.natAbs :=
    congrArg Nat.cast (decimalValue_toString _)
  have hrange := inInt64_toInt n
  have hof : Int64.ofInt n.toInt = n := Int64.ofInt_toInt n
  -- The sign touches the digits, so the lowest number is never read without it.
  by_cases hneg : n.toInt < 0
  · have hwords : numberWords n = [.char '-', .digits n.toInt.natAbs] := by
      simp [numberWords, signedWords, hneg]
    have hvalue (start : Nat) :
        -((Word.digits n.toInt.natAbs).tokenAt start).magnitude = n.toInt := by
      rw [hmagnitude]
      omega
    rw [hwords, place, place, place]
    refine ⟨_, .signed rfl rfl rfl ((hvalue _).symm ▸ hrange), ?_⟩
    exact (congrArg Int64.ofInt (hvalue _)).trans hof
  · have hwords : numberWords n = [.digits n.toInt.natAbs] := by
      simp [numberWords, signedWords, hneg]
    have hvalue (start : Nat) :
        ((Word.digits n.toInt.natAbs).tokenAt start).magnitude = n.toInt := by
      rw [hmagnitude]
      omega
    rw [hwords, place, place]
    refine ⟨_, .plain rfl ((hvalue _).symm ▸ hrange), ?_⟩
    exact (congrArg Int64.ofInt (hvalue _)).trans hof

theorem ItemsYield.number {depth : Nat} {m : Located Int64} {items : List (Item Operand)}
    {ts us : List Token} (hm : NumeralYields m ts)
    (h : ItemsYield .semicolon depth .operator items us) :
    ItemsYield .semicolon depth .operand (.operand (.number m) :: items) (ts ++ us) :=
  .operand (by simp) (by simp) (.number hm) h

def Value.numberWords : Value → List Word
  | .integer n => MatrixScript.numberWords n
  | .rational r =>
    MatrixScript.numberWords (.ofInt r.num) ++
      (.char '/' :: MatrixScript.numberWords (.ofInt r.den))
  | .matrix _ | .symbol _ | .unit => []

section
variable {v : Value}

theorem Value.spaced_numberWords (v : Value) : Spaced v.numberWords := by
  have hlast (n : Int64) : Spaced (MatrixScript.numberWords n) := by
    have h := spaced_nil.number n (by simp [CanFollow])
    rwa [List.append_nil] at h
  cases v with
  | integer n => exact hlast n
  | rational r => exact ((hlast _).char rfl).number _ (canFollow_cons rfl _)
  | matrix | symbol | unit => exact spaced_nil

theorem Value.not_blank_numberWords (v : Value) : ∀ w ∈ v.numberWords, w.isBlank = false := by
  have hsigned (n : Int64) : ∀ w ∈ MatrixScript.numberWords n, w.isBlank = false := by
    unfold MatrixScript.numberWords signedWords
    split
    · simp only [List.forall_mem_cons]
      exact ⟨rfl, rfl, List.forall_mem_nil _⟩
    · exact List.forall_mem_singleton.mpr rfl
  cases v with
  | integer n => exact hsigned n
  | rational r =>
    exact List.forall_mem_append.mpr ⟨hsigned _, List.forall_mem_cons.mpr ⟨rfl, hsigned _⟩⟩
  | matrix | symbol | unit => exact List.forall_mem_nil _

theorem Value.toList_text (hv : v.Lawful) (hnumber : v.isScalar = true) :
    v.text.toList = spelling v.numberWords := by
  cases v with
  | integer n => exact toList_toString n
  | rational r =>
    have hnum : toString r.num = toString (Int64.ofInt r.num).toInt := by
      rw [toInt_ofInt_of_inInt64 r.num_range]
    have hden : toString r.den = toString (Int64.ofInt r.den).toInt := by
      rw [toInt_ofInt_of_inInt64 r.den_range]
      rfl
    have hne : r.isInteger = false := by
      have := hv.1
      simp only [Fraction.isInteger, beq_eq_false_iff_ne]
      omega
    rw [Value.text, Fraction.text, hne, hnum, hden, if_neg Bool.false_ne_true, String.toList_append,
      String.toList_append, toList_toString, toList_toString, Value.numberWords, spelling_append,
      spelling_cons, Word.lexeme_char, List.append_assoc]
    rfl
  | matrix | symbol | unit => cases hnumber

/-! ## Their values -/

theorem Fraction.toRat_ofInt64 (n : Int64) : (ofInt64 n).toRat = n.toInt := by
  rw [toRat_eq_div]
  simp [ofInt64]

theorem Fraction.div_parts (r : Fraction) :
    (ofInt64 (.ofInt r.num)).div (ofInt64 (.ofInt r.den)) = .ok r := by
  rw [div_eq_ok_iff, toRat_ofInt64, toRat_ofInt64, toInt_ofInt_of_inInt64 r.num_range,
    toInt_ofInt_of_inInt64 r.den_range]
  exact ⟨mod_cast r.den_cast_ne_zero, r.toRat_eq_div⟩

theorem Value.scalar_of_lawful {r : Fraction} (h : (Value.rational r).Lawful) :
    Value.scalar r = .rational r := by
  have hden : r.den ≠ 1 := by
    have := h.1
    omega
  simp [Value.scalar, Fraction.toInt64?, Fraction.isInteger, hden]

theorem BinaryOp.apply_div_parts {r : Fraction} (h : (Value.rational r).Lawful) :
    BinaryOp.div.apply (.integer (.ofInt r.num)) (.integer (.ofInt r.den)) = .ok (.rational r) := by
  have honValues : BinaryOp.div.onValues? (.integer (.ofInt r.num)) (.integer (.ofInt r.den)) =
      some (.ok (.rational r)) := by
    rw [BinaryOp.onValues_scalars rfl rfl]
    change some (Value.scalar <$> (Fraction.div _ _).mapError _) = _
    rw [r.div_parts, ← Value.scalar_of_lawful h]
    rfl
  rw [BinaryOp.apply, honValues]
  rfl

theorem Eval.expression_binary {m n : Located Int64} {op : Located BinaryOp}
    (h : op.value.apply (.integer m.value) (.integer n.value) = .ok v) (whole : Span)
    (s : Session) :
    Eval.expression ⟨[.operand (.number m), .binary op, .operand (.number n)], whole⟩ s =
      .ok v s := by
  have hinvoke := Session.invoke_symbol op.value (.integer m.value) (.integer n.value) s
  rw [h] at hinvoke
  change EStateM.bind (EStateM.adaptExcept _
    (Session.invoke op.value.symbol [.integer m.value, .integer n.value])) _ s = _
  unfold EStateM.bind EStateM.adaptExcept
  rw [hinvoke]
  rfl

/-- The tokens of a printed number are an expression with that value. -/
theorem exists_expressionYields (hv : v.Lawful) (hnumber : v.isScalar = true) :
    ∃ e, ExpressionYields .semicolon e (place 0 v.numberWords) ∧
      ∀ s, Eval.expression e s = .ok v s := by
  cases v with
  | integer n =>
    obtain ⟨m, hm, rfl⟩ := exists_numeralYields 0 n
    have hitems := ItemsYield.number hm .nil
    rw [List.append_nil] at hitems
    exact ⟨_, .mk hitems, fun s => rfl⟩
  | rational r =>
    obtain ⟨m, hm, hnum⟩ := exists_numeralYields 0 (.ofInt r.num)
    obtain ⟨d, hd, hden⟩ := exists_numeralYields
      (0 + wordsSize (numberWords (.ofInt r.num)) + (Word.char '/').size) (.ofInt r.den)
    have hlast := ItemsYield.number hd .nil
    rw [List.append_nil] at hlast
    have hslash : ((Word.char '/').tokenAt (0 + wordsSize (numberWords (.ofInt r.num)))).kind =
        BinaryOp.div.kind := rfl
    have hitems := ItemsYield.number hm (.binary hslash (by simp [BinaryOp.looksUnary]) hlast)
    rw [Value.numberWords, place_append, place]
    refine ⟨_, .mk hitems, fun s => ?_⟩
    exact Eval.expression_binary (by rw [hnum, hden, BinaryOp.apply_div_parts hv]) _ s
  | matrix | symbol | unit => cases hnumber

end

/-! ## Printed numbers are expressions -/

/-- A number that a script can produce is printed as an expression, which ends at a semicolon or at
the end of the text and has that number for its value. -/
theorem number_text_evaluates {v : Value} (hv : v.Lawful) (hnumber : v.isScalar = true)
    {tail : String} (htail : StartsAtSemicolon tail) :
    ∃ e c, Parse.expression .semicolon (.ofText (v.text ++ tail)) = .ok e c ∧
      solid c.ahead =
        (solid (tokenize tail)).map (Token.relocate (· + v.text.utf8ByteSize)) ∧
      ∀ s, Eval.expression e s = .ok v s := by
  have htext := Value.toList_text hv hnumber
  have hsize : wordsSize v.numberWords = v.text.utf8ByteSize := by
    rw [← utf8ByteSize_ofList_spelling, ← htext, String.ofList_toList]
  have htokens : solid (tokenize (v.text ++ tail)) = place 0 v.numberWords ++
      (solid (tokenize tail)).map (Token.relocate (· + v.text.utf8ByteSize)) := by
    rw [solid_tokenize_before (by rw [String.toList_append, htext]) v.spaced_numberWords htail,
      hsize, solid_place v.not_blank_numberWords]
  have hc := Cursor.sees_ofText (v.text ++ tail)
  rw [htokens] at hc
  obtain ⟨e, hyields, hvalue⟩ := exists_expressionYields hv hnumber
  obtain ⟨d, hd, hsees⟩ := Parse.exists_expression_eq hyields hc (htail.stops _)
  exact ⟨e, d, hd, hsees.solid, hvalue⟩

/-- The lowest numerator over the highest denominator, before another statement. -/
theorem number_text_evaluates_of_extremes :
    let v : Value := .rational
      ⟨-9223372036854775808, 9223372036854775807, by decide, by decide, by decide, by decide⟩
    let tail := "; print(1);"
    v.Lawful ∧ v.isScalar = true ∧ StartsAtSemicolon tail ∧
      v.text = "-9223372036854775808/9223372036854775807" ∧
      ∃ e c, Parse.expression .semicolon (.ofText (v.text ++ tail)) = .ok e c ∧
        solid c.ahead =
          (solid (tokenize tail)).map (Token.relocate (· + v.text.utf8ByteSize)) ∧
        ∀ s, Eval.expression e s = .ok v s := by
  intro v tail
  have hv : v.Lawful := ⟨by decide, Fraction.canonical _⟩
  have htail : StartsAtSemicolon tail := .inr ⟨" print(1);", by decide⟩
  exact ⟨hv, rfl, htail, by decide +kernel, number_text_evaluates hv rfl htail⟩

end MatrixScript
