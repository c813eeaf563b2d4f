import Outline.Proofs.Extraction.Cpp.Rule
import Outline.Proofs.Extraction.Twin
import Outline.Proofs.Source.Stretch
import Outline.Proofs.Text.Word

/-!
# C++ in two runs

The recognizers of C++ find twins in two sources with one masked view.  One question
is put to the view that keeps literals: which word a return type starts with.  Its
answer is the same in both runs, since a type starts with a name and whatever hides a
literal in it stands behind a mark that is no part of a name.
-/

namespace Outline
namespace Cpp

open Finding (Twins)
open Mask (SameToFence isFence)

/-! ## The first word of a type -/

/-- Whether a text starts with a word that no type starts with. -/
def startsNonType (text : List Char) : Bool := (Text.words text).head?.any (oneOfWords nonTypes)

theorem isFence_of_isBlank {c : Char} (h : Text.isBlank c = true) : isFence c = false := by
  refine Bool.eq_false_iff.mpr fun hf => ?_
  simp only [isFence, Bool.or_eq_true, beq_iff_eq] at hf
  rcases hf with (rfl | rfl) | rfl <;> exact absurd h (by decide)

theorem not_nonType_of_mem {word : List Char} {c : Char} (hc : isFence c = true) (hmem : c ∈ word) :
    oneOfWords nonTypes word = false := by
  have hplain : ∀ known ∈ nonTypes, ∀ d ∈ known.toList, isFence d = false := by decide
  refine Bool.eq_false_iff.mpr fun h => ?_
  have hknown : String.ofList word ∈ nonTypes := by simpa [oneOfWords] using h
  have hnot := hplain _ hknown c (by simpa using hmem)
  rw [hc] at hnot
  exact Bool.false_ne_true hnot.symm

/-- Up to a fence the first word is the same, and a first word with a fence in it is
one that a type may start with. -/
theorem startsNonType_append_fence {c : Char} (hc : isFence c = true) (w u v : List Char) :
    startsNonType (w ++ c :: u) = startsNonType (w ++ c :: v) := by
  have hblank : Text.isBlank c = false := by
    refine Bool.eq_false_iff.mpr fun h => ?_
    rw [isFence_of_isBlank h] at hc
    exact Bool.false_ne_true hc
  induction w with
  | nil =>
    rw [List.nil_append, List.nil_append, startsNonType, startsNonType, Text.words_cons hblank,
      Text.words_cons hblank, List.head?_cons, List.head?_cons, Option.any_some, Option.any_some,
      not_nonType_of_mem hc (by simp [hblank]), not_nonType_of_mem hc (by simp [hblank])]
  | cons d w ih =>
    rw [List.cons_append, List.cons_append]
    by_cases hd : Text.isBlank d = true
    · rw [startsNonType, startsNonType, Text.words_cons_blank hd, Text.words_cons_blank hd]
      exact ih
    · have hd' : Text.isBlank d = false := by simpa using hd
      rw [startsNonType, startsNonType, Text.words_cons hd', Text.words_cons hd', List.head?_cons,
        List.head?_cons, Option.any_some, Option.any_some, ← List.cons_append, ← List.cons_append,
        List.takeWhile_append, List.takeWhile_append]
      split
      · rw [not_nonType_of_mem hc (by simp [hblank]), not_nonType_of_mem hc (by simp [hblank])]
      · rfl

theorem startsNonType_eq {s t : List Char} (h : SameToFence s t) :
    startsNonType s = startsNonType t := by
  rcases h with rfl | ⟨w, c, u, v, hc, rfl, rfl⟩
  · rfl
  · exact startsNonType_append_fence hc w u v

/-- The types declared in two runs: there or not in both, and starting with a word that
no type starts with or not in both. -/
structure SameShape (x y : Option (List Char)) : Prop where
  isSome : x.isSome = y.isSome
  startsNonType : x.any startsNonType = y.any startsNonType

/-- A declared type starts like the part of the masked view it is cut out of. -/
theorem declaredReturn_allows {text : List Char} {found : Match} {type name : Capture}
    (hf : functionPattern.FoundIn (language.subject text).masked found)
    (htype : found.part? .type = some type) (hname : found.part? .name = some name) :
    ∃ hidden, Text.slice? (language.subject text).masked type.start name.start = some hidden ∧
      Allows (declaredReturn (language.subject text) found name) fun declared =>
        ∃ spelled, declared = some spelled ∧ startsNonType spelled = startsNonType hidden := by
  have hblanks := Mask.blanks_masked language.maskRules text
  obtain ⟨-, c, hc, hspace⟩ := hf.char_of_partAvoids ' ' (by decide) htype
  obtain ⟨-, c', hc', hfeed⟩ := hf.char_of_partAvoids '\n' (by decide) htype
  obtain ⟨-, d, hd, hspace'⟩ := hf.char_of_partAvoids ' ' (by decide) hname
  have hle := hf.start_le_of_startsBefore (by decide) htype hname
  rw [hc, Option.some.injEq] at hc'
  subst hc'
  obtain ⟨shown, hidden, hshown, hhidden, hsame⟩ := Mask.exists_slices_sameToFence hc hspace hfeed
    (hblanks.isBoundary_of_charAt? hspace hc).1 (hblanks.isBoundary_of_charAt? hspace' hd).1 hle
  refine ⟨hidden, hhidden, ?_⟩
  have hpart : (language.subject text).source.strippedPart type.start name.start = .ok shown := by
    show SourceText.part (Mask.stripped language.maskRules text) _ _ = _
    rw [SourceText.part, hshown]
  rw [declaredReturn, htype]
  dsimp only
  rw [Subject.spelling, hpart]
  refine .ok ⟨_, rfl, ?_⟩
  rw [startsNonType, Text.head?_words_normalizeSpace]
  exact startsNonType_eq hsame

theorem declaredReturn_sameShape {text text' : List Char} {found : Match} {name : Capture}
    (h : Mask.masked language.maskRules text = Mask.masked language.maskRules text')
    (hf : functionPattern.FoundIn (language.subject text).masked found)
    (hname : found.part? .name = some name) :
    Relates SameShape (declaredReturn (language.subject text) found name)
      (declaredReturn (language.subject text') found name) := by
  have hmasked : (language.subject text).masked = (language.subject text').masked := h
  cases htype : found.part? .type with
  | none =>
    rw [declaredReturn, declaredReturn, htype]
    exact .ok ⟨rfl, rfl⟩
  | some type =>
    obtain ⟨hidden, hhidden, hallows⟩ := declaredReturn_allows hf htype hname
    rw [hmasked] at hf
    obtain ⟨hidden', hhidden', hallows'⟩ := declaredReturn_allows hf htype hname
    obtain rfl : hidden = hidden' := by
      rw [hmasked, hhidden', Option.some.injEq] at hhidden
      exact hhidden.symm
    refine .of_allows hallows hallows' ?_
    rintro _ _ ⟨shown, rfl, hshown⟩ ⟨shown', rfl, hshown'⟩
    exact ⟨rfl, hshown.trans hshown'.symm⟩

/-! ## Heads -/

section Heads

variable {s : Subject} {text stripped : List Char} {lines : List (List Char)} {a b : Scan}
  {found : Match} {R : FunctionEntry → FunctionEntry → Prop}

theorem returnTypeOf_twin {declared declared' : Option (List Char)}
    (h : SameShape declared declared') (trailer : Trailer) (typeless : Bool)
    (modifiers : List (List Char)) :
    Relates (fun x y => x.isSome = y.isSome) (returnTypeOf s declared trailer typeless modifiers)
      (returnTypeOf (s.reread text stripped lines) declared' trailer typeless modifiers) := by
  have hread : ∀ {attempt : Except ExtractError (List Char)},
      Allows (attempt.map (some ∘ some)) fun x : Option (Option (List Char)) => x.isSome = true :=
    (allows_true _).map fun _ _ => rfl
  have hsome : ∀ {subject : Subject} {type : List Char},
      Allows (returnTypeOf subject (some type) trailer typeless modifiers)
        fun x => x.isSome = true := by
    intro subject type
    unfold returnTypeOf
    split
    · exact hread
    · split
      · exact hread
      · exact .ok rfl
    · exact .ok rfl
    · split <;> contradiction
  cases declared with
  | some type =>
    obtain ⟨type', rfl⟩ : ∃ type', declared' = some type' :=
      Option.isSome_iff_exists.mp h.isSome.symm
    exact .of_allows hsome hsome fun x y hx hy => hx.trans hy.symm
  | none =>
    obtain rfl : declared' = none := by simpa using h.isSome.symm
    unfold returnTypeOf
    cases trailer.returnRange with
    | some range =>
      exact .of_allows hread hread fun x y hx hy => hx.trans hy.symm
    | none =>
      dsimp only
      split <;> exact .ok rfl

theorem ownerName_eq (h : a.Twin R b) (receiver : Option (List Char)) :
    ownerName s a found receiver = ownerName (s.reread text stripped lines) b found receiver := by
  rw [ownerName, ownerName, Scan.classAt?_reread]
  obtain ⟨ha, hb⟩ | ⟨index, d, e, ha, hb, hd⟩ := h.classAt?_cases s found.start
  · rw [ha, hb]
  · rw [ha, hb]
    exact congrArg some hd.entry.name_eq

/-- In both runs there is no head, or one and the same but for the type. -/
def SameHead (x y : Option Head) : Prop :=
  (x = none ∧ y = none) ∨
    ∃ head returnType, x = some head ∧ y = some { head with returnType := returnType }

theorem findHead_twin (h : a.Twin R b) {declaration name : Capture}
    {declared declared' : Option (List Char)} (hd : SameShape declared declared')
    (start stop : Nat) (trailer : Trailer) :
    Relates (fun x y => SameHead x y ∧ ∀ head, x = some head →
        head.parametersStart = start ∧ head.parametersStop = stop ∧ head.trailer = trailer)
      (findHead s a found declaration name declared start stop trailer)
      (findHead (s.reread text stripped lines) b found declaration name declared' start stop
        trailer) := by
  have hnone : declared.isNone = declared'.isNone := by
    rw [← Option.not_isSome, ← Option.not_isSome, hd.isSome]
  rw [findHead, findHead]
  generalize splitQualified name.text = qualified
  obtain ⟨receiver, word⟩ := qualified
  dsimp only
  rw [← ownerName_eq h, hnone]
  refine (returnTypeOf_twin hd trailer _ _).bind fun x y hxy => .ok ?_
  cases x with
  | none =>
    obtain rfl : y = none := by simpa using hxy.symm
    exact ⟨.inl ⟨rfl, rfl⟩, by simp⟩
  | some returnType =>
    obtain ⟨returnType', rfl⟩ := Option.isSome_iff_exists.mp hxy.symm
    refine ⟨.inr ⟨_, returnType', rfl, rfl⟩, ?_⟩
    rintro head ⟨⟩
    exact ⟨rfl, rfl, rfl⟩

theorem isFunctionHere_eq (h : a.Twin R b) (trailer : Trailer) :
    isFunctionHere s a found trailer =
      isFunctionHere (s.reread text stripped lines) b found trailer := by
  rw [isFunctionHere, isFunctionHere, Scan.classAt?_reread, Scan.atTopLevel_reread, h.atTopLevel_eq]
  obtain ⟨ha, hb⟩ | ⟨index, d, e, ha, hb, -⟩ := h.classAt?_cases s found.start
  · rw [ha, hb]
  · rw [ha, hb]
    rfl

end Heads

/-! ## Functions -/

section Functions

variable {s : Subject} {text stripped : List Char} {lines : List (List Char)} {a b : Scan}
  {found : Match}

/-- Twin entries are recorded at the same place in both runs, behind loose warnings. -/
theorem entered_twin {R : FunctionEntry → FunctionEntry → Prop} (h : a.Twin R b) (offset : Nat)
    (ending : Ending) {x y : FunctionEntry} (hxy : R x y) {fs gs : List Finding}
    (hf : ∀ f ∈ fs, f.isLoose = true) (hg : ∀ g ∈ gs, g.isLoose = true) :
    Twins R
      (fs ++ match a.classAt? s offset, ending with
        | some (index, _), .pure _ => [.abstractClass index, .method index x]
        | some (index, _), _ => [.method index x]
        | none, _ => [.function x])
      (gs ++ match b.classAt? s offset, ending with
        | some (index, _), .pure _ => [.abstractClass index, .method index y]
        | some (index, _), _ => [.method index y]
        | none, _ => [.function y]) := by
  refine (Twins.of_loose hf hg).append ?_
  obtain ⟨ha, hb⟩ | ⟨index, d, e, ha, hb, -⟩ := h.classAt?_cases s offset
  · rw [ha, hb]
    exact .single (.function hxy)
  · rw [ha, hb]
    cases ending with
    | pure stop => exact .cons (.abstractClass index) (.single (.method index hxy))
    | body | bare | defaulted => exact .single (.method index hxy)

theorem functionFindings_twin
    (h : a.Twin (FunctionEntry.ReadAlike parameterRules s (s.reread text stripped lines)) b)
    {head : Head} (returnType : Option (List Char)) {paren : Nat}
    (hstart : head.parametersStart = paren + 1) (hparen : Text.charAt? s.masked paren = some '(')
    (hclose : Delimiter.find s.masked paren = ⟨head.parametersStop, true⟩) :
    Relates (Twins (FunctionEntry.ReadAlike parameterRules s (s.reread text stripped lines)))
      (functionFindings s a found head)
      (functionFindings (s.reread text stripped lines) b found
        { head with returnType := returnType }) := by
  obtain ⟨declaration, name, receiver, modifiers, returnType', isConstructor, start, stop,
    trailer⟩ := head
  obtain rfl : start = paren + 1 := hstart
  rw [functionFindings, functionFindings]
  refine (Relates.results _ _).bind fun left right hparts => ?_
  dsimp only
  cases trailer.ending with
  | body opening =>
    refine (Relates.some_both (s.body opening)).bind fun _ _ hbody => ?_
    obtain ⟨body, rfl, rfl⟩ := hbody
    refine .ok (entered_twin h found.start _
      ⟨?_, _, _, _, _, hparen, hclose, hparts.1, hparts.2, rfl, rfl⟩ ?_ ?_)
    · obtain ⟨ha, hb⟩ | ⟨index, d, e, ha, hb, hd⟩ := h.classAt?_cases s found.start
      · simp [FunctionEntry.shell, ha, hb, h.inAnonymousScope_eq, h.scopeAt_eq]
      · simp [FunctionEntry.shell, ha, hb, hd.visibilityAt_eq, h.scopeAt_eq]
    · exact fun _ => Subject.isLoose_of_mem_checkTerminated
    · exact fun _ => Subject.isLoose_of_mem_checkTerminated
  | bare stop' | pure stop' | defaulted stop' =>
    refine .ok (entered_twin h found.start _
      ⟨?_, _, _, _, _, hparen, hclose, hparts.1, hparts.2, rfl, rfl⟩ (by simp) (by simp))
    obtain ⟨ha, hb⟩ | ⟨index, d, e, ha, hb, hd⟩ := h.classAt?_cases s found.start
    · simp [FunctionEntry.shell, ha, hb, h.inAnonymousScope_eq, h.scopeAt_eq]
    · simp [FunctionEntry.shell, ha, hb, hd.visibilityAt_eq, h.scopeAt_eq]

theorem findFunction_twin
    (h : a.Twin (FunctionEntry.ReadAlike parameterRules s (s.reread text stripped lines)) b)
    (hf : functionPattern.FoundIn s.masked found)
    (hdeclared : ∀ name, found.part? .name = some name →
      Relates SameShape (declaredReturn s found name)
        (declaredReturn (s.reread text stripped lines) found name)) :
    Relates (Twins (FunctionEntry.ReadAlike parameterRules s (s.reread text stripped lines)))
      (findFunction s a found) (findFunction (s.reread text stripped lines) b found) := by
  obtain ⟨hparen, -⟩ := hf.charAt?_of_closesWith '(' (by decide) (by decide)
  have hfirst : ∀ declared : Option (List Char),
      (declared.bind fun type => (Text.words type).head?).any (oneOfWords nonTypes) =
        declared.any startsNonType := by
    intro declared
    cases declared <;> rfl
  rw [findFunction.eq_def, findFunction.eq_def, Subject.masked_reread]
  split
  · next declaration name _ hname =>
    refine .bind_both fun starts => ?_
    split
    · exact .ok .nil
    · -- The types are spelled apart in the two runs, but start with the same kind of word.
      refine (hdeclared name hname).bind fun declared declared' hshape => ?_
      rw [hfirst, hfirst, hshape.startsNonType]
      split
      · exact .ok .nil
      · dsimp only
        split
        · next hterminated =>
          refine .bind_both fun trailer? => ?_
          split
          · exact .ok .nil
          · next trailer =>
            refine (findHead_twin h hshape _ _ _).bind fun x y hxy => ?_
            obtain ⟨⟨rfl, rfl⟩ | ⟨head, returnType, rfl, rfl⟩, hhead⟩ := hxy
            · exact .ok .nil
            · obtain ⟨hstart, hstop, -⟩ := hhead head rfl
              dsimp only
              rw [← isFunctionHere_eq h]
              split
              · refine functionFindings_twin h returnType hstart hparen ?_
                rw [hstop]
                generalize Delimiter.find s.masked (found.stop - 1) = parameters at hterminated ⊢
                obtain ⟨close, terminated⟩ := parameters
                exact congrArg _ hterminated
              · exact .ok .nil
        · exact .ok .nil
  · exact .ok .nil

end Functions

/-! ## Blocks, classes, labels, includes and fields -/

section Others

variable {s : Subject} {text stripped : List Char} {lines : List (List Char)} {a b : Scan}
  {found : Match} {R : FunctionEntry → FunctionEntry → Prop}

theorem findInclude_loose (subject : Subject) (scan : Scan) (found : Match) :
    Loose (findInclude subject scan found) :=
  .ok (by simp [Finding.isLoose])

theorem findNamespace_twin (a b : Scan) :
    Relates (Twins R) (findNamespace s a found)
      (findNamespace (s.reread text stripped lines) b found) := by
  rw [findNamespace, findNamespace, Subject.masked_reread]
  refine .bind_both fun starts => ?_
  split
  · exact .ok (.single (.block _ _))
  · exact .ok .nil

theorem isVisible_eq (h : a.Twin R b) (offset : Nat) :
    ((a.classAt? s offset).all fun (_, parent) => parent.visibilityAt offset == .publicMember) =
      (b.classAt? s offset).all fun (_, parent) =>
        parent.visibilityAt offset == .publicMember := by
  obtain ⟨ha, hb⟩ | ⟨index, d, e, ha, hb, hd⟩ := h.classAt?_cases s offset
  · rw [ha, hb]
  · rw [ha, hb]
    exact congrArg (· == Visibility.publicMember) (hd.visibilityAt_eq offset)

theorem classFindings_twin (h : a.Twin R b) {declaration name : Capture}
    {opening basesStart : Nat} :
    Relates (Twins R) (classFindings s a found declaration name opening basesStart)
      (classFindings (s.reread text stripped lines) b found declaration name opening
        basesStart) := by
  rw [classFindings, classFindings]
  refine .bind_both fun bases => .bind_both fun body => .ok ?_
  refine Twins.append_loose (.single (.classBody ?_)) ?_ ?_
  · exact ⟨⟨by simp [ClassEntry.shell, isVisible_eq h, h.inAnonymousScope_eq, h.scopeAt_eq], .nil⟩, rfl,
      rfl, h.inAnyClass_eq _, rfl, rfl⟩
  · exact fun _ => Subject.isLoose_of_mem_checkTerminated
  · exact fun _ => Subject.isLoose_of_mem_checkTerminated

theorem findClass_twin (h : a.Twin R b) :
    Relates (Twins R) (findClass s a found) (findClass (s.reread text stripped lines) b found) := by
  rw [findClass.eq_def, findClass.eq_def, Subject.masked_reread]
  split
  · refine .bind_both fun start => .bind_both fun starts => ?_
    split
    · split
      · exact classFindings_twin h
      · exact .ok .nil
    · exact .ok .nil
  · exact .ok .nil

theorem findLabel_twin (h : a.Twin R b) :
    Relates (Twins R) (findLabel s a found) (findLabel (s.reread text stripped lines) b found) := by
  rw [findLabel, findLabel, Subject.masked_reread, Scan.classAt?_reread]
  split
  · exact .ok .nil
  · obtain ⟨ha, hb⟩ | ⟨index, d, e, ha, hb, -⟩ := h.classAt?_cases s found.start
    · rw [ha, hb]
      exact .ok .nil
    · rw [ha, hb]
      exact .ok (.single (.label index _ _))

theorem findField_loose (subject : Subject) (scan : Scan) (found : Match) :
    Loose (findField subject scan found) := by
  rw [findField]
  split
  · refine (allows_true _).bind fun starts _ => ?_
    split
    · exact .ok (by simp)
    · refine (allows_true _).bind fun typeText _ => (allows_true _).bind fun fields _ => .ok ?_
      intro f hf
      obtain ⟨field, -, rfl⟩ := List.mem_map.mp hf
      rfl
  · exact .ok (by simp)

end Others

/-! ## The language -/

theorem findsTwins_of_mem_rules {text text' : List Char}
    (h : Mask.masked language.maskRules text = Mask.masked language.maskRules text') :
    ∀ rule ∈ language.rules, rule.FindsTwins (FunctionEntry.ReadAlike parameterRules
      (language.subject text) (language.subject text')) (language.subject text)
      (language.subject text') := by
  have hdeclared : ∀ {found : Match}, functionPattern.FoundIn (language.subject text).masked found →
      ∀ name, found.part? .name = some name →
        Relates SameShape (declaredReturn (language.subject text) found name)
          (declaredReturn (language.subject text') found name) :=
    fun hf name hname => declaredReturn_sameShape h hf hname
  rw [Language.subject_eq_reread h] at hdeclared ⊢
  intro rule hr
  simp only [language, List.mem_cons, List.not_mem_nil, or_false] at hr
  rcases hr with rfl | rfl | rfl | rfl | rfl | rfl | rfl
  · exact Rule.findsTwins_of_loose (findInclude_loose _) (findInclude_loose _)
  · exact Rule.findsTwins_of_apply rfl fun a b hab found _ => findNamespace_twin a b
  · exact Rule.findsTwins_of_apply rfl fun a b _ found _ =>
      .ok (.single (.block (found.stop - 1) .linkage))
  · exact Rule.findsTwins_of_apply rfl fun a b hab found _ => findClass_twin hab
  · exact Rule.findsTwins_of_apply rfl fun a b hab found _ => findLabel_twin hab
  · refine Rule.findsTwins_of_apply rfl fun a b hab found hfound => ?_
    have hf := Pattern.foundIn_of_mem_findAll hfound
    exact findFunction_twin hab hf (hdeclared hf)
  · exact Rule.findsTwins_of_loose (findField_loose _) (findField_loose _)

end Cpp
end Outline
