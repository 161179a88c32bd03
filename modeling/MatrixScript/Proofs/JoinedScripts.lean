import MatrixScript.Proofs.MovedEvaluation
import MatrixScript.Proofs.MovedTokens
import MatrixScript.Proofs.RereadTokens

/-!
# Scripts one after the other

Running scripts in turn on one session is running the text that they make up when they are put
together: a script ends with a semicolon, so no token reaches into the next one.
-/

namespace MatrixScript

/-! ## The seam of two texts -/

theorem StatementYields.getLast? {s : Statement} {ts : List Token} (h : StatementYields s ts) :
    ∃ t, ts.getLast? = some t ∧ t.kind = .semicolon := by
  cases h with
  | declaration h =>
    obtain @⟨keyword, name, assign, semicolon, value, ts, -, -, -, hs, -⟩ := h
    have hlast : (keyword :: name :: assign :: ts ++ [semicolon]).getLast? = some semicolon :=
      List.getLast?_concat
    exact ⟨semicolon, hlast, hs⟩
  | call _ hs => exact ⟨_, List.getLast?_concat, hs⟩

theorem ScriptYields.kind_getLast? {script : List Statement} {ts : List Token}
    (h : ScriptYields script ts) : ∀ t, ts.getLast? = some t → t.kind = .semicolon := by
  induction h with
  | nil => intro t ht; cases ht
  | @skip script ts semicolon hs _ ih =>
    intro t ht
    rw [List.getLast?_cons] at ht
    cases hts : ts.getLast? with
    | none => rw [hts] at ht; cases ht; exact hs
    | some u => rw [hts] at ht; cases ht; exact ih _ hts
  | @cons s script ts us hs _ ih =>
    intro t ht
    rw [List.getLast?_append] at ht
    obtain ⟨u, hu, hk⟩ := hs.getLast?
    cases hus : us.getLast? with
    | none => rw [hus, hu] at ht; cases ht; exact hk
    | some u => rw [hus] at ht; cases ht; exact ih _ hus

theorem Word.Valid.not_goesOnWith {v w : Word} (h : v.Valid) (hk : v.kind = .semicolon) :
    ¬ v.GoesOnWith w := by
  obtain ⟨c, rest, hlexeme, -, hfirst⟩ := h.exists_chars
  rw [hk] at hfirst
  have hfirst : .semicolon = TokenKind.ofFirst c := hfirst.resolve_right (by simp)
  rintro ⟨c', hc', d, -, hgoes⟩
  rw [hlexeme, String.toList_ofList] at hc'
  cases hc'
  rw [← hfirst] at hgoes
  cases hgoes

/-- The last word of a script is a blank or a semicolon. -/
theorem breaks_of_parseScript {text : String} {script : List Statement}
    (h : parseScript text = .ok script) {v : Word} (hv : (wordsOf text).getLast? = some v)
    (w : Word) : v.Breaks w := by
  intro hgoes
  rw [wordsOf, List.getLast?_map] at hv
  obtain ⟨t, ht, rfl⟩ := Option.map_eq_some_iff.mp hv
  cases hb : t.isBlank with
  | true => exact hb
  | false =>
    obtain ⟨tokens, htokens⟩ := List.getLast?_eq_some_iff.mp ht
    have hlast : (solid (tokenize text)).getLast? = some t := by
      rw [htokens, solid_append, solid_cons hb]
      exact List.getLast?_concat
    have hk := (scriptYields_of_parseScript h).kind_getLast? t hlast
    have hvalid : t.word.Valid :=
      valid_of_mem_wordsOf _ (List.mem_map_of_mem (List.mem_of_getLast? ht))
    exact absurd hgoes (hvalid.not_goesOnWith hk)

theorem solid_tokenize_append {s : String} {script : List Statement}
    (h : parseScript s = .ok script) (t : String) :
    solid (tokenize (s ++ t)) = solid (tokenize s) ++
      (solid (tokenize t)).map (Token.relocate (· + s.utf8ByteSize)) := by
  have htext : (s ++ t).toList = spelling (wordsOf s ++ wordsOf t) := by
    rw [String.toList_append, ← spelling_wordsOf s, ← spelling_wordsOf t]
    exact (List.flatMap_append ..).symm
  have hvalid : ∀ w ∈ wordsOf s ++ wordsOf t, w.Valid :=
    List.forall_mem_append.mpr ⟨valid_of_mem_wordsOf, valid_of_mem_wordsOf⟩
  have hbreaks (text : String) : (wordsOf text).IsChain Word.Breaks :=
    (isChain_wordsOf text).imp fun v w hvw hgoes => absurd hgoes hvw
  have hchain : (wordsOf s ++ wordsOf t).IsChain Word.Breaks :=
    List.isChain_append.mpr
      ⟨hbreaks s, hbreaks t, fun v hv w _ => breaks_of_parseScript h hv w⟩
  rw [solid_tokenize htext hvalid hchain, place_append, solid_append, ← tokenize_eq_place,
    place_add, solid_relocate, wordsSize_wordsOf, ← tokenize_eq_place]

theorem ScriptYields.append {script script' : List Statement} {ts us : List Token}
    (h : ScriptYields script ts) (h' : ScriptYields script' us) :
    ScriptYields (script ++ script') (ts ++ us) := by
  induction h with
  | nil => exact h'
  | skip hs _ ih => exact .skip hs ih
  | cons hs _ ih =>
    rw [List.append_assoc]
    exact .cons hs ih

/-- A script and the text after it are read as two scripts, the second one at its place. -/
theorem parseScript_append {s t : String} {script script' : List Statement}
    (h : parseScript s = .ok script) (h' : parseScript t = .ok script') :
    parseScript (s ++ t) =
      .ok (script ++ script'.map (Statement.relocate (· + s.utf8ByteSize))) := by
  rw [parseScript_eq_ok_iff, solid_tokenize_append h]
  exact (scriptYields_of_parseScript h).append
    ((scriptYields_of_parseScript h').relocate (keepsGaps_add _ _))

/-! ## Running scripts in turn -/

open Eval

theorem Fault.relocate_zero (fault : Fault) : fault.relocate (· + 0) = fault := by
  have hspan : Span.relocate (· + 0) = id := funext fun s => rfl
  rw [Fault.relocate, hspan, List.map_id]

theorem Fault.relocate_add (fault : Fault) (m n : Nat) :
    (fault.relocate (· + m)).relocate (· + n) = fault.relocate (· + (n + m)) := by
  simp [Fault.relocate, Span.relocate, Function.comp_def, Nat.add_assoc, Nat.add_comm m n]

namespace Eval

theorem statementsFrom_append (last : Value) (script script' : List Statement) :
    statementsFrom last (script ++ script') =
      statementsFrom last script >>= fun v => statementsFrom v script' := by
  induction script generalizing last with
  | nil => rfl
  | cons s script ih =>
    rw [List.cons_append, statementsFrom, statementsFrom, bind_assoc]
    exact bind_congr fun v => ih v

end Eval

def hasStatements (text : String) : Bool :=
  match parseScript text with
  | .ok (_ :: _) => true
  | _ => false

/-- The value of the last statement in texts that have the given values; `last` is the value if
there is none. -/
def lastValue (last : Value) (runs : List (String × Value)) : Value :=
  runs.foldl (fun last run => if hasStatements run.1 then run.2 else last) last

/-- One text runs the same after a statement, but for its value if it has no statement itself. -/
theorem statementsFrom_eq {text : String} {script : List Statement}
    (h : parseScript text = .ok script) (last : Value) (s : Session) :
    statementsFrom last script s =
      match Eval.script text s with
      | .ok v s' => .ok (if hasStatements text then v else last) s'
      | .error fault s' => .error fault s' := by
  rw [script_eq h, statements, hasStatements, h]
  cases script with
  | nil => rfl
  | cons first rest =>
    rw [statementsFrom, statementsFrom]
    dsimp only
    cases (statement first >>= fun v => statementsFrom v rest) s <;> rfl

def RunsTogether (texts : List String) (last : Value) (script : List Statement) (s : Session) :
    Prop :=
  match texts.mapM Eval.script s with
  | .ok values s' => statementsFrom last script s = .ok (lastValue last (texts.zip values)) s'
  | .error fault s' => ∃ before text after values s₁,
      texts = before ++ text :: after ∧ before.mapM Eval.script s = .ok values s₁ ∧
        Eval.script text s₁ = .error fault s' ∧
        statementsFrom last script s =
          .error (fault.relocate (· + (String.join before).utf8ByteSize)) s'

theorem mapM_script_cons (text : String) (texts : List String) (s : Session) :
    (text :: texts).mapM Eval.script s =
      match Eval.script text s with
      | .error fault s₁ => .error fault s₁
      | .ok v s₁ =>
        match texts.mapM Eval.script s₁ with
        | .error fault s₂ => .error fault s₂
        | .ok values s₂ => .ok (v :: values) s₂ := by
  rw [List.mapM_cons]
  change EStateM.bind (Eval.script text) (fun v => EStateM.bind (texts.mapM Eval.script) fun values =>
    EStateM.pure (v :: values)) s = _
  unfold EStateM.bind
  cases Eval.script text s with
  | error fault s₁ => rfl
  | ok v s₁ =>
    dsimp only
    cases texts.mapM Eval.script s₁ <;> rfl

theorem runsTogether_cons {text : String} {texts : List String} {script script' : List Statement}
    (h : parseScript text = .ok script) (hs : ∀ s ∈ script', s.Legible)
    (ih : ∀ last s, RunsTogether texts last script' s) (last : Value) (s : Session) :
    RunsTogether (text :: texts) last
      (script ++ script'.map (Statement.relocate (· + text.utf8ByteSize))) s := by
  have hg : Monotone (· + text.utf8ByteSize) := fun m n hle => Nat.add_le_add_right hle _
  have hrun : statementsFrom last (script ++ script'.map (Statement.relocate
      (· + text.utf8ByteSize))) s =
      match Eval.script text s with
      | .error fault s₁ => .error fault s₁
      | .ok v s₁ => relocated (· + text.utf8ByteSize)
          (statementsFrom (if hasStatements text then v else last) script') s₁ := by
    rw [statementsFrom_append]
    change EStateM.bind (statementsFrom last script) _ s = _
    unfold EStateM.bind
    rw [statementsFrom_eq h]
    cases Eval.script text s with
    | error fault s₁ => rfl
    | ok v s₁ => exact congrFun (statementsFrom_recast hg keeps_id _ hs) s₁
  unfold RunsTogether
  rw [mapM_script_cons, hrun]
  cases hscript : Eval.script text s with
  | error fault s₁ =>
    exact ⟨[], text, texts, [], s, rfl, rfl, hscript, congrArg (EStateM.Result.error · s₁)
      fault.relocate_zero.symm⟩
  | ok v s₁ =>
    have ih := ih (if hasStatements text then v else last) s₁
    unfold RunsTogether at ih
    dsimp only
    cases hmap : texts.mapM Eval.script s₁ with
    | ok values s₂ =>
      rw [hmap] at ih
      exact relocated_of_ok _ ih
    | error fault s₂ =>
      rw [hmap] at ih
      obtain ⟨before, failing, after, values, s', rfl, hbefore, hfailing, hjoined⟩ := ih
      refine ⟨text :: before, failing, after, v :: values, s', rfl, ?_, hfailing, ?_⟩
      · rw [mapM_script_cons, hscript]
        dsimp only
        rw [hbefore]
      · rw [String.join_cons, String.utf8ByteSize_append, ← Fault.relocate_add]
        exact relocated_of_error _ hjoined

theorem exists_parseScript_of_isOk {text : String} (h : (parseScript text).isOk = true) :
    ∃ script, parseScript text = .ok script := by
  cases hp : parseScript text with
  | ok script => exact ⟨script, rfl⟩
  | error fault => rw [hp] at h; cases h

theorem exists_parseScript_join {texts : List String}
    (h : ∀ text ∈ texts, (parseScript text).isOk = true) :
    ∃ script, parseScript (String.join texts) = .ok script ∧
      ∀ last s, RunsTogether texts last script s := by
  induction texts with
  | nil => exact ⟨[], rfl, fun last s => rfl⟩
  | cons text texts ih =>
    obtain ⟨htext, hrest⟩ := List.forall_mem_cons.mp h
    obtain ⟨script, hscript⟩ := exists_parseScript_of_isOk htext
    obtain ⟨script', hscript', hruns⟩ := ih hrest
    rw [String.join_cons]
    exact ⟨_, parseScript_append hscript hscript',
      runsTogether_cons hscript (legible_of_parseScript hscript') hruns⟩

/-- Running texts one at a time, up to the first that fails, is running the text that they make up:
with the same session in the end, the value of the last statement, and the spans of a fault moved by
what was run before. -/
theorem script_join {texts : List String} (h : ∀ text ∈ texts, (parseScript text).isOk = true)
    (s : Session) :
    (∀ values s', texts.mapM Eval.script s = .ok values s' →
      Eval.script (String.join texts) s = .ok (lastValue .unit (texts.zip values)) s') ∧
    (∀ fault s', texts.mapM Eval.script s = .error fault s' →
      ∃ before text after values s₁, texts = before ++ text :: after ∧
        before.mapM Eval.script s = .ok values s₁ ∧ Eval.script text s₁ = .error fault s' ∧
          Eval.script (String.join texts) s =
            .error (fault.relocate (· + (String.join before).utf8ByteSize)) s') := by
  obtain ⟨script, hscript, hruns⟩ := exists_parseScript_join h
  have hrun := hruns .unit s
  rw [Eval.script_eq hscript, statements]
  unfold RunsTogether at hrun
  constructor
  · intro values s' hvalues
    rwa [hvalues] at hrun
  · intro fault s' hfault
    rwa [hfault] at hrun

/-- Five texts, of which the fourth divides by zero after it has printed.  There are 22 bytes before
it. -/
theorem script_join_of_division :
    let texts := ["let x = 2;", "\n", ";print(-x);", "print(x); f(1 / (x-2));", "let y = 1;"]
    let fault : Fault := ⟨.arithmetic .divisionByZero, [⟨12, 20⟩]⟩
    let s' : Session := ⟨⟨[("x", .integer 2)]⟩, { written := utf8Bytes "-2\n2\n" }⟩
    (∀ text ∈ texts, (parseScript text).isOk = true) ∧
    texts.mapM Eval.script {} = .error fault s' ∧
    (∃ before text after values s₁, texts = before ++ text :: after ∧
      before.mapM Eval.script {} = .ok values s₁ ∧ Eval.script text s₁ = .error fault s' ∧
        Eval.script (String.join texts) {} =
          .error (fault.relocate (· + (String.join before).utf8ByteSize)) s') ∧
    Eval.script (String.join texts) {} = .error ⟨.arithmetic .divisionByZero, [⟨34, 42⟩]⟩ s' := by
  intro texts fault s'
  have htexts : ∀ text ∈ texts, (parseScript text).isOk = true := by decide +kernel
  have hfault : texts.mapM Eval.script {} = .error fault s' := by decide +kernel
  exact ⟨htexts, hfault, (script_join htexts {}).2 fault s' hfault, by decide +kernel⟩

end MatrixScript
