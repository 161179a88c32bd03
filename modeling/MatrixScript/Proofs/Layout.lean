import MatrixScript.Proofs.MovedEvaluation
import MatrixScript.Proofs.RereadTokens
import MatrixScript.Proofs.SettledSigns

/-!
# Layout

Blanks between tokens decide about one thing only, whether a minus sign is an operator or part of
the number after it.  Texts of the same words are therefore read as the same program but for such
signs, and run the same.
-/

namespace MatrixScript

open Eval

def SameUpToSpans {α : Type} : EStateM.Result Fault Session α → EStateM.Result Fault Session α → Prop
  | .ok x s, .ok y s' => x = y ∧ s = s'
  | .error fault s, .error fault' s' => fault.cause = fault'.cause ∧ s = s'
  | _, _ => False

theorem sameUpToSpans_of_relocated {α : Type} {g : Nat → Nat} {p q : Eval α} {s : Session}
    (h : relocated g p s = relocated g q s) : SameUpToSpans (p s) (q s) := by
  cases hp : p s with
  | ok x s₁ =>
    rw [relocated_of_ok g hp] at h
    cases hq : q s with
    | ok y s₂ =>
      rw [relocated_of_ok g hq] at h
      cases h
      exact ⟨rfl, rfl⟩
    | error fault s₂ => rw [relocated_of_error g hq] at h; cases h
  | error fault s₁ =>
    rw [relocated_of_error g hp] at h
    cases hq : q s with
    | ok y s₂ => rw [relocated_of_ok g hq] at h; cases h
    | error fault' s₂ =>
      rw [relocated_of_error g hq] at h
      obtain ⟨hfault, rfl⟩ := EStateM.Result.error.inj h
      exact ⟨(Fault.mk.inj hfault).1, rfl⟩

/-- Scripts that are the same once they are settled run the same. -/
theorem sameUpToSpans_statements {script script' : List Statement}
    (h : script.map Statement.settled = script'.map Statement.settled)
    (hs : ∀ s ∈ script, s.Legible) (hs' : ∀ s ∈ script', s.Legible) (s : Session) :
    SameUpToSpans (statements script s) (statements script' s) := by
  have hsettled : Statement.settled = Statement.recast (fun _ => 0) absorb :=
    Statement.settled_eq.trans (funext (Statement.reshape_eq_recast absorb))
  have hg : Monotone fun _ : Nat => 0 := monotone_const
  refine sameUpToSpans_of_relocated (g := fun _ => 0) (congrFun ?_ s)
  rw [statements, statements, ← statementsFrom_recast hg keeps_absorb .unit hs,
    ← statementsFrom_recast hg keeps_absorb .unit hs', ← hsettled, h]

/-! ## Texts of the same words -/

theorem alike_of_words {us ts : List Token} (h : us.map Token.word = ts.map Token.word) :
    View.lax.Alike us ts := by
  have hmap := congrArg (List.map fun w : Word => (⟨w.kind, w.lexeme, nowhere⟩ : Token)) h
  rwa [List.map_map, List.map_map] at hmap

theorem parseScript_of_words {text text' : String} {script : List Statement}
    (h : (solid (tokenize text')).map Token.word = (solid (tokenize text)).map Token.word)
    (hscript : parseScript text = .ok script) :
    match parseScript text' with
    | .ok script' => script'.map Statement.settled = script.map Statement.settled
    | .error fault => DetachedOverflow text' fault := by
  have hread := parseScript_alike (scriptYields_of_parseScript hscript) (alike_of_words h)
  have hsettled : Statement.settled = View.lax.statement :=
    Statement.settled_eq.trans (funext (Statement.reshape_eq_recast absorb))
  rw [hsettled]
  cases hp : parseScript text' with
  | ok script' => rwa [hp] at hread
  | error fault =>
    rw [hp] at hread
    exact hread.2

/-- Texts that differ in their blanks only are read as the same program once it is settled, and run
the same.  If one of them is not read, it is for a number that is too large without the minus sign
before it. -/
theorem layout_of_words {text text' : String}
    (h : (solid (tokenize text)).map Token.word = (solid (tokenize text')).map Token.word) :
    (∀ script script', parseScript text = .ok script → parseScript text' = .ok script' →
      script.map Statement.settled = script'.map Statement.settled ∧
        (∀ s ∈ script.map Statement.settled, s.normal = s) ∧
        ∀ s, SameUpToSpans (Eval.script text s) (Eval.script text' s)) ∧
    (∀ script fault, parseScript text = .ok script → parseScript text' = .error fault →
      DetachedOverflow text' fault) ∧
    (∀ script fault, parseScript text' = .ok script → parseScript text = .error fault →
      DetachedOverflow text fault) := by
  refine ⟨fun script script' hp hp' => ?_, fun script fault hp hp' => ?_,
    fun script fault hp hp' => ?_⟩
  · have hread := parseScript_of_words h hp'
    rw [hp] at hread
    refine ⟨hread, List.forall_mem_map.mpr fun s _ => s.normal_settled, fun s => ?_⟩
    rw [script_eq hp, script_eq hp']
    exact sameUpToSpans_statements hread (legible_of_parseScript hp) (legible_of_parseScript hp') s
  · have hread := parseScript_of_words h.symm hp
    rwa [hp'] at hread
  · have hread := parseScript_of_words h hp
    rwa [hp'] at hread

/-- A sign that is part of a number in one layout only, and one that the number does not fit
without. -/
theorem layout_of_words_of_signs :
    let spaced := "let a = - - 0; print(a -3, - 5 *2);"
    let tight := "let a=- -0;\nprint(a-3,-5*2);"
    let lost := "let a = - 9223372036854775808;"
    let kept := "let a = -9223372036854775808;"
    ((solid (tokenize spaced)).map Token.word = (solid (tokenize tight)).map Token.word ∧
      (parseScript spaced).isOk = true ∧ (parseScript tight).isOk = true ∧
      ∀ script script', parseScript spaced = .ok script → parseScript tight = .ok script' →
        script.map Statement.settled = script'.map Statement.settled ∧
          (∀ s ∈ script.map Statement.settled, s.normal = s) ∧
          ∀ s, SameUpToSpans (Eval.script spaced s) (Eval.script tight s)) ∧
    ((solid (tokenize lost)).map Token.word = (solid (tokenize kept)).map Token.word ∧
      (parseScript lost).isOk = false ∧ (parseScript kept).isOk = true ∧
      ∀ script fault, parseScript kept = .ok script → parseScript lost = .error fault →
        DetachedOverflow lost fault) := by
  intro spaced tight lost kept
  have hsame : (solid (tokenize spaced)).map Token.word = (solid (tokenize tight)).map Token.word := by
    decide +kernel
  have hlost : (solid (tokenize lost)).map Token.word = (solid (tokenize kept)).map Token.word := by
    decide +kernel
  exact ⟨⟨hsame, by decide +kernel, by decide +kernel, (layout_of_words hsame).1⟩, hlost,
    by decide +kernel, by decide +kernel, (layout_of_words hlost).2.2⟩

/-- One round is not enough: of the two signs of `- - 0` it leaves one, but of those of `- -0`, where
the second one is read as part of the number, it leaves none. -/
theorem layout_seen_after_one_round :
    let spaced := "let a = - - 0;"
    let tight := "let a = - -0;"
    (solid (tokenize spaced)).map Token.word = (solid (tokenize tight)).map Token.word ∧
      ∃ script script', parseScript spaced = .ok script ∧ parseScript tight = .ok script' ∧
        script.map Statement.normal ≠ script'.map Statement.normal := by
  intro spaced tight
  let sizes (script : List Statement) : List (List Nat) :=
    (script.map Statement.normal).map fun s => s.expressions.map (·.items.length)
  have hspaced : (sizes <$> parseScript spaced).toOption = some [[2]] := by decide +kernel
  have htight : (sizes <$> parseScript tight).toOption = some [[1]] := by decide +kernel
  refine ⟨by decide +kernel, ?_⟩
  cases hp : parseScript spaced with
  | error fault => rw [hp] at hspaced; cases hspaced
  | ok script =>
    cases hp' : parseScript tight with
    | error fault => rw [hp'] at htight; cases htight
    | ok script' =>
      rw [hp] at hspaced
      rw [hp'] at htight
      refine ⟨script, script', rfl, rfl, fun hsame => ?_⟩
      have hsizes : sizes script = sizes script' :=
        congrArg (List.map fun s => s.expressions.map (·.items.length)) hsame
      cases (Option.some.inj hspaced).symm.trans (hsizes.trans (Option.some.inj htight))

end MatrixScript
