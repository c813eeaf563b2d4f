import Outline.Proofs.Extraction.Java.Rule
import Outline.Proofs.Extraction.Twin

/-!
# Java in two runs

The recognizers of Java find twins in two sources with one masked view.  Parameters
and return types are cut out of the view that keeps literals, but whether a method is
one is settled by the masked view.
-/

namespace Outline
namespace Java

open Finding (Twins)

variable {s : Subject} {text stripped : List Char} {lines : List (List Char)} {a b : Scan}
  {found : Match}

/-! ## Packages, imports and fields -/

theorem findPackage_twin {R : FunctionEntry → FunctionEntry → Prop} (h : a.Twin R b) :
    Relates (Twins R) (findPackage s a found)
      (findPackage (s.reread text stripped lines) b found) := by
  rw [findPackage, findPackage, Subject.masked_reread, h.package]
  refine .bind_both fun starts => ?_
  split
  · exact .ok (.single (.package _))
  · exact .ok .nil

theorem findImport_loose (subject : Subject) (scan : Scan) (found : Match) :
    Loose (findImport subject scan found) := by
  rw [findImport]
  refine (allows_true _).bind fun live _ => ?_
  split
  · exact .ok (by simp [Finding.isLoose])
  · exact .ok (by simp)

theorem findField_loose (subject : Subject) (scan : Scan) (found : Match) :
    Loose (findField subject scan found) := by
  rw [findField]
  split
  · refine (allows_true _).bind fun starts _ => ?_
    split
    · exact .ok (by simp)
    · refine (allows_true _).bind fun typeText _ => (allows_true _).bind fun fields _ => .ok ?_
      intro f hf
      obtain ⟨field, -, rfl⟩ := List.mem_map.mp hf
      rfl
  · exact .ok (by simp)

/-! ## Types -/

theorem recordComponents_loose (subject : Subject) (index : Nat) (range : Option (Nat × Nat)) :
    Loose (recordComponents subject index range) := by
  rw [recordComponents.eq_def]
  split
  · exact .ok (by simp)
  · refine (allows_true _).bind fun part _ => .ok ?_
    intro f hf
    obtain ⟨component, -, rfl⟩ := List.mem_map.mp hf
    rfl

theorem enumConstants_loose (subject : Subject) (index opening : Nat) (name : List Char) :
    Loose (enumConstants subject index opening name) := by
  rw [enumConstants]
  refine (allows_true _).bind fun list _ => .ok ?_
  intro f hf
  obtain ⟨_, -, hpiece⟩ := List.mem_filterMap.mp hf
  obtain ⟨_, -, rfl⟩ := Option.map_eq_some_iff.mp hpiece
  rfl

theorem isInInterface_eq {R : FunctionEntry → FunctionEntry → Prop} (h : a.Twin R b)
    (offset : Nat) :
    ((a.classAt? s offset).any fun (_, draft) => draft.entry.kind == .interface) =
      (b.classAt? s offset).any fun (_, draft) => draft.entry.kind == .interface := by
  obtain ⟨ha, hb⟩ | ⟨index, d, e, ha, hb, hd⟩ := h.classAt?_cases s offset
  · rw [ha, hb]
  · rw [ha, hb]
    exact congrArg (· == ClassKind.interface) hd.entry.kind_eq

theorem typeFindings_twin {R : FunctionEntry → FunctionEntry → Prop} (h : a.Twin R b)
    {declaration name : Capture} {opening : Nat} :
    Relates (Twins R) (typeFindings s a found declaration name opening)
      (typeFindings (s.reread text stripped lines) b found declaration name opening) := by
  have hall : ∀ d e : ClassDraft, d.Twin R e → ∀ {body : Body} {fs gs fs' gs' : List Finding},
      (∀ f ∈ fs, f.isLoose = true) → (∀ g ∈ gs, g.isLoose = true) →
      (∀ f ∈ fs', f.isLoose = true) → (∀ g ∈ gs', g.isLoose = true) →
      Twins R ([.classBody d] ++ s.checkTerminated body name.text declaration.start ++ fs ++ fs')
        ([.classBody e] ++ (s.reread text stripped lines).checkTerminated body name.text
          declaration.start ++ gs ++ gs') := by
    intro d e hd body fs gs fs' gs' hf hg hf' hg'
    refine ((Twins.append_loose ?_ ?_ ?_).append_loose hf hg).append_loose hf' hg'
    · exact .single (.classBody hd)
    · exact fun _ => Subject.isLoose_of_mem_checkTerminated
    · exact fun _ => Subject.isLoose_of_mem_checkTerminated
  rw [typeFindings, typeFindings, Subject.masked_reread]
  generalize headerStart s.masked _ name.stop = start
  obtain ⟨cursor, components⟩ := start
  refine .bind_both fun header => .bind_both fun clauses => .bind_both fun body => ?_
  refine (recordComponents_loose _ _ _).bind (recordComponents_loose _ _ _)
    fun components components' hcomponents hcomponents' => ?_
  dsimp only
  split
  · refine (enumConstants_loose _ _ _ _).bind (enumConstants_loose _ _ _ _)
      fun constants constants' hconstants hconstants' => .ok ?_
    refine hall _ _ ?_ hcomponents hcomponents' hconstants hconstants'
    exact ⟨⟨by simp [ClassEntry.shell, isInInterface_eq h, h.package], .nil⟩, rfl, rfl, h.inAnyClass_eq _,
      rfl, rfl⟩
  · refine .ok (hall _ _ ?_ hcomponents hcomponents' (by simp) (by simp))
    exact ⟨⟨by simp [ClassEntry.shell, isInInterface_eq h, h.package], .nil⟩, rfl, rfl, h.inAnyClass_eq _,
      rfl, rfl⟩

theorem findType_twin {R : FunctionEntry → FunctionEntry → Prop} (h : a.Twin R b) :
    Relates (Twins R) (findType s a found) (findType (s.reread text stripped lines) b found) := by
  rw [findType.eq_def, findType.eq_def, Subject.masked_reread]
  split
  · refine .bind_both fun starts => ?_
    split
    · split
      · exact typeFindings_twin h
      · exact .ok .nil
    · exact .ok .nil
  · exact .ok .nil

/-! ## Methods -/

theorem isMethodHere_eq {R : FunctionEntry → FunctionEntry → Prop} (h : a.Twin R b) (name : Capture)
    (trailer : Trailer) :
    isMethodHere s a found name trailer =
      isMethodHere (s.reread text stripped lines) b found name trailer := by
  rw [isMethodHere.eq_def, isMethodHere.eq_def, Scan.classAt?_reread, Scan.atTopLevel_reread,
    h.atTopLevel_eq]
  obtain ⟨ha, hb⟩ | ⟨index, d, e, ha, hb, hd⟩ := h.classAt?_cases s found.start
  · rw [ha, hb]
  · rw [ha, hb]
    dsimp only
    rw [hd.entry.name_eq]

/-- Twin entries are recorded at the same place in both runs, behind loose warnings. -/
theorem entered_twin {R : FunctionEntry → FunctionEntry → Prop} (h : a.Twin R b) (offset : Nat)
    {x y : FunctionEntry} (hxy : R x y) {fs gs : List Finding} (hf : ∀ f ∈ fs, f.isLoose = true)
    (hg : ∀ g ∈ gs, g.isLoose = true) :
    Twins R
      (fs ++ [match a.classAt? s offset with
        | some (index, _) => .method index x
        | none => .function x])
      (gs ++ [match b.classAt? s offset with
        | some (index, _) => .method index y
        | none => .function y]) := by
  refine (Twins.of_loose hf hg).append (.single ?_)
  obtain ⟨ha, hb⟩ | ⟨index, d, e, ha, hb, -⟩ := h.classAt?_cases s offset
  · rw [ha, hb]
    exact .function hxy
  · rw [ha, hb]
    exact .method index hxy

theorem methodFindings_twin
    (h : a.Twin (FunctionEntry.ReadAlike parameterRules s (s.reread text stripped lines)) b)
    {declaration name : Capture} {paren stop : Nat} {trailer : Trailer}
    (hparen : Text.charAt? s.masked paren = some '(')
    (hclose : Delimiter.find s.masked paren = ⟨stop, true⟩) :
    Relates (Twins (FunctionEntry.ReadAlike parameterRules s (s.reread text stripped lines)))
      (methodFindings s a found declaration name (paren + 1) stop trailer)
      (methodFindings (s.reread text stripped lines) b found declaration name (paren + 1) stop
        trailer) := by
  have hvisibility := h.map_classAt?_eq s found.start
    (f := fun (owner : Nat × ClassDraft) => owner.2.defaultVisibility)
    fun _ _ _ hd => hd.defaultVisibility
  rw [methodFindings, methodFindings]
  refine (Relates.results _ _).bind fun returnType returnType' _ => ?_
  refine (Relates.results _ _).bind fun left right hparts => ?_
  cases trailer with
  | body opening =>
    refine (Relates.some_both (s.body opening)).bind fun _ _ hbody => ?_
    obtain ⟨body, rfl, rfl⟩ := hbody
    refine .ok (entered_twin h found.start
      ⟨?_, _, _, _, _, hparen, hclose, hparts.1, hparts.2, rfl, rfl⟩ ?_ ?_)
    · simp [FunctionEntry.shell, hvisibility, h.scopeAt_eq]
    · exact fun _ => Subject.isLoose_of_mem_checkTerminated
    · exact fun _ => Subject.isLoose_of_mem_checkTerminated
  | declaration stop' =>
    refine .ok (entered_twin h found.start
      ⟨?_, _, _, _, _, hparen, hclose, hparts.1, hparts.2, rfl, rfl⟩ (by simp) (by simp))
    simp [FunctionEntry.shell, hvisibility, h.scopeAt_eq]

theorem findMethod_twin
    (h : a.Twin (FunctionEntry.ReadAlike parameterRules s (s.reread text stripped lines)) b)
    (hf : methodPattern.FoundIn s.masked found) :
    Relates (Twins (FunctionEntry.ReadAlike parameterRules s (s.reread text stripped lines)))
      (findMethod s a found) (findMethod (s.reread text stripped lines) b found) := by
  obtain ⟨hparen, -⟩ := hf.charAt?_of_closesWith '(' (by decide) (by decide)
  rw [findMethod.eq_def, findMethod.eq_def, Subject.masked_reread]
  split
  · refine .bind_both fun starts => ?_
    split
    · exact .ok .nil
    · dsimp only
      split
      · next hterminated =>
        refine .bind_both fun trailer? => ?_
        split
        · next trailer =>
          rw [← isMethodHere_eq h]
          split
          · refine methodFindings_twin h hparen ?_
            generalize Delimiter.find s.masked (found.stop - 1) = parameters at hterminated ⊢
            obtain ⟨close, terminated⟩ := parameters
            exact congrArg _ hterminated
          · exact .ok .nil
        · exact .ok .nil
      · exact .ok .nil
  · exact .ok .nil

/-! ## The language -/

theorem findsTwins_of_mem_rules {text text' : List Char}
    (h : Mask.masked language.maskRules text = Mask.masked language.maskRules text') :
    ∀ rule ∈ language.rules, rule.FindsTwins (FunctionEntry.ReadAlike parameterRules
      (language.subject text) (language.subject text')) (language.subject text)
      (language.subject text') := by
  rw [Language.subject_eq_reread h]
  intro rule hr
  simp only [language, List.mem_cons, List.not_mem_nil, or_false] at hr
  rcases hr with rfl | rfl | rfl | rfl | rfl
  · exact Rule.findsTwins_of_apply rfl fun a b hab found _ => findPackage_twin hab
  · exact Rule.findsTwins_of_loose (findImport_loose _) (findImport_loose _)
  · exact Rule.findsTwins_of_apply rfl fun a b hab found _ => findType_twin hab
  · exact Rule.findsTwins_of_apply rfl fun a b hab found hfound =>
      findMethod_twin hab (Pattern.foundIn_of_mem_findAll hfound)
  · exact Rule.findsTwins_of_loose (findField_loose _) (findField_loose _)

end Java
end Outline
