import MatrixScript.Proofs.JoinedScripts
import MatrixScript.Proofs.MirroredParses
import MatrixScript.Proofs.SeamTokens

/-!
# Scripts that go on

After a script, a text is read as it is read alone: as the same statements at their new places, or
with the same fault there.
-/

namespace MatrixScript

namespace Parse

open Cursor

variable {text : String} {g : Nat → Nat} {c c' : Cursor} {ts rest : List Token}

/-! ## The statements of the script -/

theorem exists_statement_eq {s : Statement} (h : StatementYields s ts)
    (hc : c.Sees text (ts ++ rest)) : ∃ d, statement c = .ok s d ∧ d.Sees text rest := by
  refine (rereads_statement h).exists_eq (fun s' hs' => ?_) hc trivial
  rwa [← s.relocate_id, ← s'.relocate_id]

theorem statementsWithin_semicolon (fuel : Nat) {t : Token} (hc : c.Sees text (t :: ts))
    (ht : t.kind = .semicolon) :
    ∃ d, statementsWithin (fuel + 1) c = statementsWithin fuel d ∧ d.Sees text ts := by
  have haccept : Reaches (accept .semicolon) c fun x d => x = some t ∧ d.Sees text ts :=
    ends_accept_seen hc ht
  obtain ⟨_, d, hd, rfl, hsees⟩ := haccept.exists_eq
  refine ⟨d, ?_, hsees⟩
  rw [statementsWithin, bind_of_eq_ok hd]
  rfl

theorem statementsWithin_nil (fuel : Nat) (hc : c.Sees text []) :
    ∃ d, statementsWithin (fuel + 1) c = .ok [] d := by
  have haccept : Reaches (accept .semicolon) c fun x d => x = none ∧ d.Sees text [] :=
    ends_accept_unseen hc fun t ht => by cases ht
  obtain ⟨_, d, hd, rfl, hsees⟩ := haccept.exists_eq
  have hpeek : (peekKind? : Parse _) d = .ok d.peekKind? d := rfl
  refine ⟨d, ?_⟩
  rw [statementsWithin, bind_of_eq_ok hd, Option.isSome_none, if_neg Bool.false_ne_true,
    bind_of_eq_ok hpeek, hsees.peekKind?]
  rfl

theorem statementsWithin_statement (fuel : Nat) {s : Statement} (h : StatementYields s ts)
    (hc : c.Sees text (ts ++ rest)) :
    ∃ d, statementsWithin (fuel + 1) c = ((s :: ·) <$> statementsWithin fuel) d ∧
      d.Sees text rest := by
  obtain ⟨t, ts', rfl, ht⟩ := leadsOff_statement h
  have haccept : Reaches (accept .semicolon) c fun x d =>
      x = none ∧ d.Sees text (t :: ts' ++ rest) :=
    ends_accept_unseen hc fun u hu => by cases hu; exact ht
  obtain ⟨_, d, hd, rfl, hd'⟩ := haccept.exists_eq
  obtain ⟨e, he, hsees⟩ := exists_statement_eq h hd'
  have hpeek : (peekKind? : Parse _) d = .ok d.peekKind? d := rfl
  have hsome : ¬ d.peekKind?.isNone = true := by
    rw [hd'.peekKind?]
    exact Bool.false_ne_true
  refine ⟨e, ?_, hsees⟩
  rw [statementsWithin, bind_of_eq_ok hd, Option.isSome_none, if_neg Bool.false_ne_true,
    bind_of_eq_ok hpeek, if_neg hsome, bind_of_eq_ok he]
  rfl

/-- After the statements that the first tokens are yielded by, the rest is read. -/
theorem exists_statementsWithin_eq {script : List Statement} (h : ScriptYields script ts)
    (hc : c.Sees text (ts ++ rest)) {fuel : Nat} (hfuel : (ts ++ rest).length < fuel) :
    ∃ d fuel', d.Sees text rest ∧ rest.length < fuel' ∧
      statementsWithin fuel c = ((script ++ ·) <$> statementsWithin fuel') d := by
  induction h generalizing c fuel with
  | nil => exact ⟨c, fuel, hc, hfuel, by simp⟩
  | @skip script ts semicolon hs _ ih =>
    obtain _ | fuel := fuel
    · cases hfuel
    obtain ⟨d, hd, hsees⟩ := statementsWithin_semicolon fuel hc hs
    obtain ⟨e, fuel', he, hfuel', hrest⟩ := ih hsees (Nat.lt_of_succ_lt_succ hfuel)
    exact ⟨e, fuel', he, hfuel', hd.trans hrest⟩
  | @cons s script ts us hs _ ih =>
    obtain _ | fuel := fuel
    · cases hfuel
    rw [List.append_assoc] at hc hfuel
    obtain ⟨d, hd, hsees⟩ := statementsWithin_statement fuel hs hc
    have hless : (us ++ rest).length < fuel := by
      obtain ⟨t, ts', rfl, -⟩ := leadsOff_statement hs
      simp only [List.length_append, List.length_cons] at hfuel ⊢
      omega
    obtain ⟨e, fuel', he, hfuel', hrest⟩ := ih hsees hless
    refine ⟨e, fuel', he, hfuel', hd.trans ?_⟩
    rw [map_of_eq hrest, Functor.map_map]
    rfl

/-! ## The statements after it -/

theorem mirrored_statementsWithin (h : c.Resembles g c') (hc : c.Sees text ts) {fuel fuel' : Nat}
    (hfuel : ts.length < fuel) (hfuel' : ts.length < fuel') :
    Mirrored g (statementsWithin fuel) c (statementsWithin fuel') c'
      fun script _ script' _ => script' = script.map (Statement.relocate g) := by
  induction fuel generalizing c c' ts fuel' with
  | zero => cases hfuel
  | succ fuel ih =>
    obtain _ | fuel' := fuel'
    · cases hfuel'
    unfold statementsWithin
    apply ((mirrored_accept h h (fun _ _ hd => hd.resembles) .semicolon).and_returns
      (returns_accept_seen .semicolon hc)).bind
    intro t d t' d' ht
    obtain ⟨⟨rfl, hd⟩, hseen⟩ := ht
    cases t with
    | some t =>
      rcases hseen with ⟨hnone, -⟩ | ⟨u, us, -, -, rfl, hsees⟩
      · cases hnone
      · exact ih hd hsees (Nat.lt_of_succ_lt_succ hfuel) (Nat.lt_of_succ_lt_succ hfuel')
    | none =>
      have hsees : d.Sees text ts := by
        rcases hseen with ⟨-, hsees⟩ | ⟨u, us, hsome, -⟩
        · exact hsees
        · cases hsome
      apply mirrored_peekKind hd
      rw [hsees.peekKind?]
      cases ts with
      | nil => rfl
      | cons t ts =>
        apply ((mirrored_statement hd).and_returns (consumes_statement d _ hsees)).bind
        intro s e s' e' hs
        obtain ⟨⟨rfl, he⟩, us, rest, hts, hs, hrest⟩ := hs
        have hless : rest.length < (t :: ts).length := by
          obtain ⟨u, us', rfl, -⟩ := leadsOff_statement hs
          simp only [hts, List.length_append, List.length_cons]
          omega
        apply (ih he.resembles hrest (Nat.lt_of_lt_of_le hless (Nat.le_of_lt_succ hfuel))
          (Nat.lt_of_lt_of_le hless (Nat.le_of_lt_succ hfuel'))).bind
        intro script k script' k' hscript
        obtain rfl := hscript
        rfl

end Parse

/-! ## At the seam -/

/-- Two ends of a list, each of them empty or starting with a token that is no blank, are the same if
they have the same number of such tokens. -/
theorem eq_of_suffix {tokens ts us : List Token} (ht : ts <:+ tokens) (hu : us <:+ tokens)
    (hts : ∀ t ∈ ts.head?, t.isBlank = false) (hus : ∀ u ∈ us.head?, u.isBlank = false)
    (h : (solid ts).length = (solid us).length) : ts = us := by
  have hend {xs ys : List Token} (hsuffix : xs <:+ ys) (hys : ∀ y ∈ ys.head?, y.isBlank = false)
      (hxys : (solid xs).length = (solid ys).length) : xs = ys := by
    obtain ⟨before, rfl⟩ := hsuffix
    cases before with
    | nil => rfl
    | cons b before =>
      have hb : b.isBlank = false := hys b rfl
      rw [List.cons_append, solid_cons hb, solid_append] at hxys
      simp only [List.length_cons, List.length_append] at hxys
      omega
  rcases List.suffix_or_suffix_of_suffix ht hu with hsuffix | hsuffix
  · exact hend hsuffix hus h
  · exact (hend hsuffix hts h.symm).symm

theorem head?_dropWhile_isBlank (ts : List Token) :
    ∀ t ∈ (ts.dropWhile (·.isBlank)).head?, t.isBlank = false := by
  intro t ht
  have hhead := List.head?_dropWhile_not Token.isBlank ts
  rw [ht] at hhead
  simpa using hhead

section
variable {s t : String} {script : List Statement} (h : parseScript s = .ok script)
include h

theorem dropWhile_of_sees {c : Cursor} (hc : c.Sees (s ++ t)
      ((solid (tokenize t)).map (Token.relocate (· + s.utf8ByteSize)))) :
    c.ahead.dropWhile (·.isBlank) =
      ((tokenize t).dropWhile (·.isBlank)).map (Token.relocate (· + s.utf8ByteSize)) := by
  apply eq_of_suffix ((List.dropWhile_suffix _).trans hc.suffix)
    (suffix_tokenize_append fun v hv w => breaks_of_parseScript h hv w)
  · exact head?_dropWhile_isBlank _
  · rw [← Cursor.dropWhile_relocate]
    exact head?_dropWhile_isBlank _
  · rw [solid_relocate, solid_dropWhile, solid_dropWhile, hc.solid]

theorem mirrored_statements {c : Cursor} (hc : c.Sees (s ++ t)
      ((solid (tokenize t)).map (Token.relocate (· + s.utf8ByteSize)))) {fuel : Nat}
    (hfuel : (solid (tokenize t)).length < fuel) :
    Parse.Mirrored (· + s.utf8ByteSize) Parse.statements (.ofText t) (Parse.statementsWithin fuel) c
      fun script _ script' _ => script' = script.map (Statement.relocate (· + s.utf8ByteSize)) := by
  have hstart := Cursor.sees_ofText t
  have hbound := Nat.lt_succ_of_le hstart.length_le
  have hahead := dropWhile_of_sees h hc
  cases htokens : (tokenize t).dropWhile (·.isBlank) with
  | nil =>
    have hnone : solid (tokenize t) = [] := by rw [← solid_dropWhile, htokens]; rfl
    rw [hnone] at hc hstart
    obtain _ | fuel := fuel
    · cases hfuel
    obtain ⟨d, hd⟩ := Parse.statementsWithin_nil (tokenize t).length hstart
    obtain ⟨d', hd'⟩ := Parse.statementsWithin_nil fuel hc
    have hstatements : Parse.statements (.ofText t) = .ok [] d := hd
    unfold Parse.Mirrored
    rw [hstatements, hd']
    rfl
  | cons u rest =>
    rw [htokens] at hahead
    exact Parse.mirrored_statementsWithin (Cursor.resembles_of_cons htokens hahead) hstart hbound
      hfuel

/-- A script and a text after it: the statements of the script and then those of the text at their
new places, or the fault of the text at its new place. -/
theorem parseScript_continued (t : String) :
    (∀ script', parseScript t = .ok script' → parseScript (s ++ t) =
      .ok (script ++ script'.map (Statement.relocate (· + s.utf8ByteSize)))) ∧
    ∀ fault, parseScript t = .error fault →
      parseScript (s ++ t) = .error (fault.relocate (· + s.utf8ByteSize)) := by
  have hsees := Cursor.sees_ofText (s ++ t)
  have hbound := Nat.lt_succ_of_le hsees.length_le
  rw [solid_tokenize_append h] at hsees hbound
  obtain ⟨c, fuel, hc, hfuel, hrun⟩ :=
    Parse.exists_statementsWithin_eq (scriptYields_of_parseScript h) hsees hbound
  rw [List.length_map] at hfuel
  have hall : Parse.statements (.ofText (s ++ t)) =
      EStateM.map (script ++ ·) (Parse.statementsWithin fuel) c := hrun
  unfold parseScript
  rw [hall]
  unfold EStateM.map
  rcases (mirrored_statements h hc hfuel).cases with
    ⟨read, d, _, d', hread, hrest, rfl⟩ | ⟨fault, d, d', hfails, hrest⟩
  · rw [hread, hrest]
    constructor
    · intro script' hscript
      cases hscript
      rfl
    · intro fault hfault
      cases hfault
  · rw [hfails, hrest]
    constructor
    · intro script' hscript
      cases hscript
    · intro fault' hfault
      cases hfault
      rfl

end

def parseFault? (text : String) : Option Fault :=
  match parseScript text with
  | .ok _ => none
  | .error fault => some fault

theorem parseFault?_eq_some_iff {text : String} {fault : Fault} :
    parseFault? text = some fault ↔ parseScript text = .error fault := by
  unfold parseFault?
  cases parseScript text <;> simp

/-- Blanks meet at the seam.  One of the declarations after it breaks off. -/
theorem parseScript_continued_of_blanks :
    let s := "print(1); "
    let t := " \n let y = 2;"
    let u := " \n let y"
    ∃ script script', parseScript s = .ok script ∧ parseScript t = .ok script' ∧
      parseScript (s ++ t) = .ok (script ++ script'.map (Statement.relocate (· + 10))) ∧
      parseScript u = .error ⟨.missingAssign, [⟨8, 8⟩]⟩ ∧
      parseScript (s ++ u) = .error ⟨.missingAssign, [⟨18, 18⟩]⟩ := by
  intro s t u
  have hs : (parseScript s).isOk = true := by decide +kernel
  have ht : (parseScript t).isOk = true := by decide +kernel
  have hu : parseFault? u = some ⟨.missingAssign, [⟨8, 8⟩]⟩ := by decide +kernel
  have hfails := parseFault?_eq_some_iff.mp hu
  obtain ⟨script, hscript⟩ := exists_parseScript_of_isOk hs
  obtain ⟨script', hscript'⟩ := exists_parseScript_of_isOk ht
  exact ⟨script, script', hscript, hscript', (parseScript_continued hscript t).1 _ hscript', hfails,
    (parseScript_continued hscript u).2 _ hfails⟩

end MatrixScript
