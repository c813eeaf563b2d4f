import Outline.Extraction.Cpp.Rule
import Outline.Proofs.Extraction.Cpp.Trailer
import Outline.Proofs.Extraction.Moved

/-!
# C++ further down

Each rule of C++ tells the same of two subjects that differ by an aspect.  All of them
read the masked view but the one for includes, which an aspect may leave out.
-/

namespace Outline
namespace Cpp

open Finding (SameUnder)

variable {aspect : Aspect} {s t : Subject} {a b : Scan} {found : Match}

/-! ## Includes, namespaces and linkage blocks -/

theorem findInclude_agree (ht : Subject.Moved aspect s t) (a b : Scan) :
    Agree aspect.lines (SameUnder aspect) (findInclude s a found)
      (findInclude t b (found.down aspect.lines)) := by
  refine .ok (.single ?_)
  simp [Finding.under?, ImportEntry.under, ht.lineOf]

theorem findNamespace_agree (ht : Subject.Moved aspect s t) (a b : Scan)
    (hpos : 0 < found.stop) :
    Agree aspect.lines (SameUnder aspect) (findNamespace s a found)
      (findNamespace t b (found.down aspect.lines)) := by
  rw [findNamespace, findNamespace, Match.start_down, Match.stop_down_pred _ hpos, Match.part?_down,
    Option.map_map]
  refine (ht.startsAt _ _).bind_eq fun starts => ?_
  split
  · exact .ok (.single rfl)
  · exact .ok .nil

theorem findLinkage_agree (s t : Subject) (a b : Scan) (hpos : 0 < found.stop) :
    Agree aspect.lines (SameUnder aspect) (findLinkage s a found)
      (findLinkage t b (found.down aspect.lines)) := by
  rw [findLinkage, findLinkage, Match.stop_down_pred _ hpos]
  exact .ok (.single rfl)

/-! ## Classes -/

theorem classStart_lower (n : Nat) (masked : List Char) (start : Nat) :
    Agree n (fun x y => y = x + n) (classStart masked start)
      (classStart (Text.lower n masked) (start + n)) := by
  refine (SourceText.headTo_lower n masked start).map ?_
  rintro before _ rfl
  rw [Text.trimEnd_lower]
  by_cases hempty : (Text.trimEnd before).isEmpty = true
  · rw [if_pos hempty, List.isEmpty_iff.mp hempty]
    rfl
  · rw [if_neg hempty, Text.dropTrail?_lower n _ (by decide)]
    cases Text.dropTrail? "typedef".toList (Text.trimEnd before) with
    | none => rfl
    | some before => exact Text.width_lower n before

theorem classBody?_lower (n : Nat) (masked : List Char) (tail : Capture) :
    classBody? (Text.lower n masked) (tail.down n) =
      (classBody? masked tail).map (downRange n) := by
  rw [classBody?, classBody?, Capture.text_down, Capture.start_down, Capture.stop_down,
    Text.charAt?_lower, Statement.bodyOpen?_lower, Option.map_map]
  split
  · rfl
  · split
    · rfl
    · rw [Option.map_map]
      rfl

theorem isVisible_under (h : a.SameUnder aspect b) (ht : Subject.Moved aspect s t) (offset : Nat) :
    ((b.classAt? t (offset + aspect.lines)).all fun (_, parent) =>
        parent.visibilityAt (offset + aspect.lines) == .publicMember) =
      (a.classAt? s offset).all fun (_, parent) =>
        parent.visibilityAt offset == .publicMember := by
  obtain ⟨ha, hb⟩ | ⟨index, d, e, ha, hb, hde⟩ := h.classAt?_cases ht offset
  · rw [ha, hb]
    rfl
  · rw [ha, hb]
    exact congrArg (· == Visibility.publicMember) (Scan.SameUnder.visibilityAt_eq hde offset)

theorem classFindings_agree (h : a.SameUnder aspect b) (ht : Subject.Moved aspect s t)
    (hs : s.masked ≠ []) (declaration name : Capture) (opening basesStart : Nat) :
    Agree aspect.lines (SameUnder aspect)
      (classFindings s a found declaration name opening basesStart)
      (classFindings t b (found.down aspect.lines) (declaration.down aspect.lines)
        (name.down aspect.lines) (opening + aspect.lines) (basesStart + aspect.lines)) := by
  rw [classFindings, classFindings]
  refine (ht.maskedPart _ _).bind_eq fun basesText => ?_
  refine (ht.body hs opening).bind ?_
  rintro body _ rfl
  refine .ok ((SameUnder.classBody ?_).append
    (ht.checkTerminated body name.text declaration.start))
  simp [ClassDraft.under, ClassEntry.under, Body.down, isVisible_under h ht,
    h.inAnonymousScope_eq ht, h.scopeAt_eq ht, h.inAnyClass_eq, ht.lineOf, ht.docstring_under]

theorem findClass_agree (h : a.SameUnder aspect b) (ht : Subject.Moved aspect s t)
    (hs : s.masked ≠ []) :
    Agree aspect.lines (SameUnder aspect) (findClass s a found)
      (findClass t b (found.down aspect.lines)) := by
  rw [findClass.eq_def, findClass.eq_def, Match.part?_down, Match.part?_down, Match.part?_down]
  cases found.part? .declaration with
  | none => exact .ok .nil
  | some declaration =>
    cases found.part? .name with
    | none => exact .ok .nil
    | some name =>
      cases found.part? .tail with
      | none => exact .ok .nil
      | some tail =>
        dsimp only [Option.map_some]
        rw [ht.masked, classBody?_lower, Match.start_down]
        refine (classStart_lower _ _ _).bind ?_
        rintro start _ rfl
        refine (Statement.startsAt_lower _ _ _ _).bind_eq fun starts => ?_
        split
        · cases classBody? s.masked tail with
          | none => exact .ok .nil
          | some range =>
            exact classFindings_agree h ht hs declaration name range.1 range.2
        · exact .ok .nil

/-! ## Access labels -/

theorem findLabel_agree (h : a.SameUnder aspect b) (ht : Subject.Moved aspect s t) :
    Agree aspect.lines (SameUnder aspect) (findLabel s a found)
      (findLabel t b (found.down aspect.lines)) := by
  rw [findLabel, findLabel, ht.masked, Match.stop_down, Text.charAt?_lower, Match.start_down,
    Match.text_down]
  split
  · exact .ok .nil
  · obtain ⟨ha, hb⟩ | ⟨index, d, e, ha, hb, -⟩ := h.classAt?_cases ht found.start
    · rw [ha, hb]
      exact .ok .nil
    · rw [ha, hb]
      exact .ok (.single rfl)

/-! ## Functions -/

theorem declaredReturn_agree (ht : Subject.Moved aspect s t) (name : Capture) :
    Agree aspect.lines Eq (declaredReturn s found name)
      (declaredReturn t (found.down aspect.lines) (name.down aspect.lines)) := by
  rw [declaredReturn, declaredReturn, Match.part?_down]
  cases found.part? .type with
  | none => exact .ok rfl
  | some type => exact (ht.spelling _ _).map_eq some

theorem returnTypeOf_agree (ht : Subject.Moved aspect s t) (declared : Option (List Char))
    (trailer : Trailer) (typeless : Bool) (modifiers : List (List Char)) :
    Agree aspect.lines Eq (returnTypeOf s declared trailer typeless modifiers)
      (returnTypeOf t declared (trailer.down aspect.lines) typeless modifiers) := by
  have htrailing : ∀ range : Nat × Nat, Agree aspect.lines Eq
      ((trailingReturn s range).map (some ∘ some))
      ((trailingReturn t (downRange aspect.lines range)).map (some ∘ some)) :=
    fun range => ((ht.spelling _ _).map_eq _).map_eq _
  have hrange : (trailer.down aspect.lines).returnRange =
      trailer.returnRange.map (downRange aspect.lines) := rfl
  rw [returnTypeOf.eq_def, returnTypeOf.eq_def, hrange]
  cases trailer.returnRange with
  | none => cases declared <;> exact .both _ _
  | some range =>
    cases declared with
    | none => exact htrailing range
    | some type =>
      dsimp only [Option.map_some]
      split
      · exact htrailing range
      · exact .ok rfl

theorem ownerName_under (h : a.SameUnder aspect b) (ht : Subject.Moved aspect s t)
    (receiver : Option (List Char)) :
    ownerName t b (found.down aspect.lines) receiver = ownerName s a found receiver := by
  rw [ownerName, ownerName, Match.start_down]
  obtain ⟨ha, hb⟩ | ⟨index, d, e, ha, hb, hde⟩ := h.classAt?_cases ht found.start
  · rw [ha, hb]
  · rw [ha, hb]
    exact congrArg some (ClassDraft.name_eq_of_under hde)

/-- A head so many bytes further down. -/
def Head.down (n : Nat) (head : Head) : Head :=
  { head with
    declaration := head.declaration.down n
    parametersStart := head.parametersStart + n
    parametersStop := head.parametersStop + n
    trailer := head.trailer.down n }

theorem findHead_agree (h : a.SameUnder aspect b) (ht : Subject.Moved aspect s t)
    (declaration name : Capture) (declared : Option (List Char)) (start stop : Nat)
    (trailer : Trailer) :
    Agree aspect.lines (fun x y => y = x.map (Head.down aspect.lines))
      (findHead s a found declaration name declared start stop trailer)
      (findHead t b (found.down aspect.lines) (declaration.down aspect.lines)
        (name.down aspect.lines) declared (start + aspect.lines) (stop + aspect.lines)
        (trailer.down aspect.lines)) := by
  rw [findHead, findHead, Capture.text_down, Match.text_down]
  generalize splitQualified name.text = qualified
  obtain ⟨receiver, word⟩ := qualified
  dsimp only
  rw [ownerName_under h ht]
  refine (returnTypeOf_agree ht declared trailer _ _).bind_eq fun returnType => .ok ?_
  rw [Option.map_map]
  rfl

theorem isFunctionHere_under (h : a.SameUnder aspect b) (ht : Subject.Moved aspect s t)
    (trailer : Trailer) :
    isFunctionHere t b (found.down aspect.lines) (trailer.down aspect.lines) =
      isFunctionHere s a found trailer := by
  obtain ⟨ending, range⟩ := trailer
  rw [isFunctionHere, isFunctionHere, Match.start_down, h.atTopLevel_eq ht]
  obtain ⟨ha, hb⟩ | ⟨index, d, e, ha, hb, -⟩ := h.classAt?_cases ht found.start
  · rw [ha, hb]
    cases ending <;> rfl
  · rw [ha, hb]
    rfl

/-- In both runs a function is exported, or in none.  A public member is, and of functions
outside of classes the same ones are. -/
theorem isExported_under (h : a.SameUnder aspect b) (ht : Subject.Moved aspect s t) (offset : Nat)
    (outside : Bool) :
    (match b.classAt? t (offset + aspect.lines) with
      | some (_, draft) => draft.visibilityAt (offset + aspect.lines) == Visibility.publicMember
      | none => outside) =
    match a.classAt? s offset with
      | some (_, draft) => draft.visibilityAt offset == Visibility.publicMember
      | none => outside := by
  obtain ⟨ha, hb⟩ | ⟨index, d, e, ha, hb, hde⟩ := h.classAt?_cases ht offset
  · rw [ha, hb]
  · rw [ha, hb]
    exact congrArg (· == Visibility.publicMember) (Scan.SameUnder.visibilityAt_eq hde offset)

/-- Entries that are the same are recorded at the same place in both runs. -/
theorem entered_under (h : a.SameUnder aspect b) (ht : Subject.Moved aspect s t) (offset : Nat)
    (ending : Ending) {x y : FunctionEntry} (hxy : x.under aspect = y.under aspect.still)
    {fs gs : List Finding} (hs : SameUnder aspect fs gs) :
    SameUnder aspect
      (fs ++ match a.classAt? s offset, ending with
        | some (index, _), .pure _ => [.abstractClass index, .method index x]
        | some (index, _), _ => [.method index x]
        | none, _ => [.function x])
      (gs ++ match b.classAt? t (offset + aspect.lines), ending.down aspect.lines with
        | some (index, _), .pure _ => [.abstractClass index, .method index y]
        | some (index, _), _ => [.method index y]
        | none, _ => [.function y]) := by
  refine hs.append ?_
  obtain ⟨ha, hb⟩ | ⟨index, d, e, ha, hb, -⟩ := h.classAt?_cases ht offset
  · rw [ha, hb]
    exact .function hxy
  · have habstract : SameUnder aspect [.abstractClass index] [.abstractClass index] := .single rfl
    rw [ha, hb]
    cases ending with
    | pure stop => exact habstract.append (.method index hxy)
    | body | bare | defaulted => exact .method index hxy

theorem functionFindings_agree (h : a.SameUnder aspect b) (ht : Subject.Moved aspect s t)
    (hs : s.masked ≠ []) (head : Head) :
    Agree aspect.lines (SameUnder aspect) (functionFindings s a found head)
      (functionFindings t b (found.down aspect.lines) (head.down aspect.lines)) := by
  obtain ⟨declaration, name, receiver, modifiers, returnType, isConstructor, start, stop,
    ending, range⟩ := head
  have howner : (b.classAt? t (found.start + aspect.lines)).isSome =
      (a.classAt? s found.start).isSome := by
    obtain ⟨ha, hb⟩ | ⟨index, d, e, ha, hb, -⟩ := h.classAt?_cases ht found.start
    · rw [ha, hb]
    · rw [ha, hb]
      rfl
  rw [functionFindings, functionFindings]
  refine (ht.strippedPart _ _).bind_eq fun parametersText => ?_
  cases ending with
  | body opening =>
    refine (ht.body_some hs opening).bind ?_
    rintro _ _ ⟨body, rfl, rfl⟩
    refine .ok (entered_under h ht found.start (.body opening) ?_
      (ht.checkTerminated body name declaration.start))
    simp [FunctionEntry.under, Body.down, Head.down, Trailer.down, Ending.down, howner,
      h.inAnonymousScope_eq ht, h.scopeAt_eq ht, ht.lineOf, ht.docstring_under]
    exact (isExported_under h ht found.start _).symm
  | bare stop' | pure stop' | defaulted stop' =>
    refine .ok (entered_under h ht found.start _ ?_ .nil)
    simp [FunctionEntry.under, Head.down, Trailer.down, Ending.down, howner,
      h.inAnonymousScope_eq ht, h.scopeAt_eq ht, ht.lineOf, ht.docstring_under]
    exact (isExported_under h ht found.start _).symm

theorem findFunction_agree (h : a.SameUnder aspect b) (ht : Subject.Moved aspect s t)
    (hpos : 0 < found.stop) (hs : s.masked ≠ []) :
    Agree aspect.lines (SameUnder aspect) (findFunction s a found)
      (findFunction t b (found.down aspect.lines)) := by
  rw [findFunction.eq_def, findFunction.eq_def, Match.part?_down, Match.part?_down]
  cases found.part? .declaration with
  | none => exact .ok .nil
  | some declaration =>
    cases found.part? .name with
    | none => exact .ok .nil
    | some name =>
      refine (ht.startsAt _ _).bind_eq fun starts => ?_
      rw [Capture.text_down]
      split
      · exact .ok .nil
      · refine (declaredReturn_agree ht name).bind_eq fun declared => ?_
        split
        · exact .ok .nil
        · dsimp only
          rw [Match.stop_down_pred _ hpos, ht.find hs, Delimiter.Match.close_down,
            Delimiter.Match.terminated_down]
          split
          · rw [Nat.add_right_comm _ aspect.lines 1, ht.masked]
            refine (trailer?_lower _ hs _).bind ?_
            rintro (_ | trailer) _ rfl
            · exact .ok .nil
            · rw [Nat.add_right_comm _ aspect.lines 1]
              refine (findHead_agree h ht declaration name declared _ _ trailer).bind ?_
              rintro (_ | head) _ rfl
              · exact .ok .nil
              · dsimp only [Option.map_some]
                rw [isFunctionHere_under h ht]
                split
                · exact functionFindings_agree h ht hs head
                · exact .ok .nil
          · exact .ok .nil

/-! ## Fields -/

theorem findField_agree (h : a.SameUnder aspect b) (ht : Subject.Moved aspect s t) :
    Agree aspect.lines (SameUnder aspect) (findField s a found)
      (findField t b (found.down aspect.lines)) := by
  rw [findField.eq_def, findField.eq_def, Match.part?_down, Match.part?_down, Match.start_down]
  cases found.part? .type with
  | none => exact .ok .nil
  | some type =>
    cases found.part? .name with
    | none => exact .ok .nil
    | some name =>
      obtain ⟨ha, hb⟩ | ⟨index, d, e, ha, hb, hde⟩ := h.classAt?_cases ht found.start
      · rw [ha, hb]
        exact .ok .nil
      · rw [ha, hb]
        refine (ht.startsAt _ _).bind_eq fun starts => ?_
        rw [Capture.text_down, Capture.text_down, Match.text_down]
        split
        · exact .ok .nil
        · rw [Capture.start_down, Capture.start_down]
          refine (ht.spelling _ _).bind_eq fun typeText => ?_
          refine (ht.declarators _ _).bind ?_
          rintro fields _ rfl
          refine .ok ?_
          rw [SameUnder, List.map_map, List.filterMap_map, List.filterMap_map]
          refine List.filterMap_congr ?_
          rintro ⟨offset, fieldName, defaultValue⟩ -
          simp [Finding.under?, Field.down, PropertyEntry.under, Scan.SameUnder.visibilityAt_eq hde,
            ht.lineOf]

/-! ## The language -/

/-- Each rule finds what it finds further down, if the one for includes does. -/
theorem agrees_of_mem_rules (ht : Subject.Moved aspect s t)
    (hinclude : Rule.Agrees aspect ⟨.full, includePattern, findInclude⟩ s t) :
    ∀ rule ∈ language.rules, rule.Agrees aspect s t := by
  intro rule hr
  simp only [language, List.mem_cons, List.not_mem_nil, or_false] at hr
  rcases hr with rfl | rfl | rfl | rfl | rfl | rfl | rfl
  · exact hinclude
  · exact Rule.agrees_of_masked ht (by decide) rfl fun a b _ found _ hpos _ =>
      findNamespace_agree ht a b hpos
  · exact Rule.agrees_of_masked ht (by decide) rfl fun a b _ found _ hpos _ =>
      findLinkage_agree s t a b hpos
  · exact Rule.agrees_of_masked ht (by decide) rfl fun a b h found _ _ hs => findClass_agree h ht hs
  · exact Rule.agrees_of_masked ht (by decide) rfl fun a b h found _ _ _ => findLabel_agree h ht
  · exact Rule.agrees_of_masked ht (by decide) rfl fun a b h found _ hpos hs =>
      findFunction_agree h ht hpos hs
  · exact Rule.agrees_of_masked ht (by decide) rfl fun a b h found _ _ _ => findField_agree h ht

theorem lowered_agrees (feeds : Nat) (text : List Char) :
    ∀ rule ∈ language.rules, rule.Agrees (.lowered feeds) (language.subject text)
      (language.subject (Text.lower feeds text)) := by
  have ht := language.subject_lower feeds text
  refine agrees_of_mem_rules ht (Rule.agrees_of_lower (by decide) (ht.text rfl) ?_)
  exact fun a b _ found _ => findInclude_agree ht a b

theorem uncommented_agrees {text text' : List Char}
    (hm : Mask.masked language.maskRules text = Mask.masked language.maskRules text')
    (hs : Mask.stripped language.maskRules text = Mask.stripped language.maskRules text') :
    ∀ rule ∈ language.rules, rule.Agrees .uncommented (language.subject text)
      (language.subject text') := by
  -- An include may stand in a comment, so the two runs need not find the same ones.
  have himports : ∀ (subject : Subject) (v : Aspect), v.bare = true → ∀ (scan : Scan)
      (found : Match), Yields (findInclude subject scan found) fun fs =>
        ∀ f ∈ fs, f.under? v = none := by
    intro subject v hv scan found
    exact .ok (by simp [Finding.under?, hv])
  refine agrees_of_mem_rules (Language.subject_uncommented hm hs) (Rule.agrees_of_silent ?_ ?_)
  · exact fun scan found _ => himports _ _ rfl scan found
  · exact fun scan found _ => himports _ _ rfl scan found

end Cpp
end Outline
