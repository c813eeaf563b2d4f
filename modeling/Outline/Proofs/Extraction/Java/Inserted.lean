import Outline.Extraction.Java.Rule
import Outline.Proofs.Extraction.Inserted
import Outline.Proofs.Extraction.Java.Import
import Outline.Proofs.Extraction.Moved
import Outline.Proofs.Extraction.Statement

/-!
# Java around what is put in

Each rule of Java tells the same of two subjects that end alike, for the matches of their common
end.  All of them read the masked view but the one for imports, which is told apart.
-/

namespace Outline
namespace Java

variable {i : Insertion} {s t : Subject} {a b : Scan} {found found' : Match}

theorem modifiersOf_down (n : Nat) (found : Match) :
    modifiersOf (found.down n) = modifiersOf found := by
  rw [modifiersOf, modifiersOf, Match.text_down]

theorem modifiersOf_eq (hf : i.Moves found found') : modifiersOf found' = modifiersOf found := by
  rw [modifiersOf, modifiersOf, hf.text_eq]

/-! ## Packages -/

theorem findPackage_agree (h : i.SameScan a b) (ht : i.Relates s t) (hf : i.Moves found found') :
    Agree i.width i.Same (findPackage s a (found.down i.before)) (findPackage t b found') := by
  rw [findPackage, findPackage, Match.start_down, hf.start, Match.text_down, hf.text_eq, h.package_eq]
  refine (ht.startsAt _).bind_eq fun starts => ?_
  split
  · exact .ok (.single rfl)
  · exact .ok .nil

/-! ## Types -/

theorem headerStart_behind {n : Nat} {live masked : List Char} (h : Text.Behind n live masked)
    (hne : live ≠ []) (kind : ClassKind) (stop : Nat) :
    headerStart masked kind (stop + n) =
      ((headerStart live kind stop).1 + n, (headerStart live kind stop).2.map (downRange n)) := by
  have hcomponents : ∀ cursor : Nat,
      (if kind = .record ∧ Text.charAt? masked (cursor + n) = some '(' then
        ((Delimiter.find masked (cursor + n)).close + 1,
          some (cursor + n + 1, (Delimiter.find masked (cursor + n)).close))
      else (cursor + n, none)) =
        let start : Nat × Option (Nat × Nat) :=
          if kind = .record ∧ Text.charAt? live cursor = some '(' then
            ((Delimiter.find live cursor).close + 1,
              some (cursor + 1, (Delimiter.find live cursor).close))
          else (cursor, none)
        (start.1 + n, start.2.map (downRange n)) := by
    intro cursor
    rw [h.charAt?_eq, h.find_eq hne, Delimiter.Match.close_down]
    dsimp only
    split
    · simp only [Option.map_some, downRange, Nat.add_right_comm _ n 1]
    · rfl
  rw [headerStart, headerStart, h.skipBlanks_eq, h.charAt?_eq]
  dsimp only
  split
  · rw [h.find_eq hne, Delimiter.Match.close_down, Nat.add_right_comm _ n 1, h.skipBlanks_eq]
    exact hcomponents _
  · exact hcomponents _

theorem recordComponents_agree (ht : i.Relates s t) (index : Nat) (range : Option (Nat × Nat)) :
    Agree i.width i.Same (recordComponents s index (range.map (downRange i.before)))
      (recordComponents t index (range.map (downRange i.after))) := by
  cases range with
  | none => exact .ok .nil
  | some range =>
    obtain ⟨start, stop⟩ := range
    refine (ht.strippedPart start stop).bind_eq fun text => .ok (.map fun component _ => ?_)
    simp [Finding.placed, Finding.under?, PropertyEntry.under, ht.lineOf]

theorem enumConstants_agree (ht : i.Relates s t) (index opening : Nat) (enumName : List Char) :
    Agree i.width i.Same (enumConstants s index (opening + i.before) enumName)
      (enumConstants t index (opening + i.after) enumName) := by
  rw [enumConstants, enumConstants, Nat.add_right_comm opening i.before,
    Nat.add_right_comm opening i.after, ht.masked.endAt_eq, ht.masked'.endAt_eq]
  refine (ht.maskedPart _ _).bind_eq fun list => .ok ?_
  rw [piecesWithOffsets_add i.before, piecesWithOffsets_add i.after, List.filterMap_map,
    List.filterMap_map]
  refine .filterMap ?_
  rintro ⟨offset, piece⟩ -
  dsimp only [Function.comp_apply]
  cases (leadingName.find? piece).bind (·.part? .name) with
  | none => rfl
  | some name =>
    simp [Finding.placed, Finding.under?, PropertyEntry.under, Nat.add_right_comm offset, ht.lineOf]

theorem isInInterface_same (h : i.SameScan a b) (ht : i.Relates s t) (offset : Nat) :
    ((b.classAt? t (i.site offset)).any fun (_, draft) => draft.entry.kind == .interface) =
      (a.classAt? s (offset + i.before)).any fun (_, draft) => draft.entry.kind == .interface := by
  obtain ⟨ha, hb⟩ | ⟨index, d, e, ha, hb, hde⟩ := h.classAt?_cases ht offset
  · rw [ha, hb]
  · rw [ha, hb]
    exact congrArg (· == ClassKind.interface) hde.kind_eq

theorem typeFindings_agree (h : i.SameScan a b) (ht : i.Relates s t) (hf : i.Moves found found')
    (declaration name : Capture) {opening : Nat}
    (ho : Text.charAt? i.live opening = some '\x7b') :
    Agree i.width i.Same
      (typeFindings s a (found.down i.before) (declaration.down i.before) (name.down i.before)
        (opening + i.before))
      (typeFindings t b found' (declaration.down i.after) (name.down i.after)
        (opening + i.after)) := by
  have hne : i.live ≠ [] := Text.ne_nil_of_charAt? ho
  rw [typeFindings, typeFindings, Match.text_down, hf.text_eq, modifiersOf_down, modifiersOf_eq hf,
    Capture.stop_down, Capture.stop_down, headerStart_behind ht.masked hne,
    headerStart_behind ht.masked' hne]
  generalize headerStart i.live _ name.stop = start
  obtain ⟨cursor, components⟩ := start
  dsimp only
  rw [Nat.add_min_add_right, Nat.add_min_add_right]
  refine (ht.maskedPart _ _).bind_eq fun header => (Agree.both _ _).bind_eq fun supertypes => ?_
  obtain ⟨base, interfaces⟩ := supertypes
  refine (ht.body ho).bind ?_
  rintro body _ rfl
  dsimp only
  rw [h.length_classes_eq]
  refine (recordComponents_agree ht _ components).bind fun fields fields' hfields => ?_
  have hopening : i.place (opening + i.before) + i.aspect.lines = opening + i.after :=
    ht.site_eq ho _ (Nat.le_refl _)
  -- Enumerations and other types differ in their constants only.
  have hfindings : ∀ {d e : ClassDraft}, i.SameDraft d e →
      ∀ {constants constants' : List Finding}, i.Same constants constants' →
        i.Same
          ([.classBody d] ++ s.checkTerminated body name.text (declaration.start + i.before) ++
            fields ++ constants)
          ([.classBody e] ++ t.checkTerminated (i.body body) name.text
            (declaration.start + i.after) ++ fields' ++ constants') := by
    intro d e hde constants constants' hconstants
    exact (((Insertion.Same.classBody hde).append (ht.checkTerminated _ _ _)).append hfields).append
      hconstants
  split
  · refine (enumConstants_agree ht _ opening name.text).bind fun constants constants' hconstants =>
      .ok (hfindings ?_ hconstants)
    simp [Insertion.SameDraft, ClassDraft.placed, ClassDraft.under, ClassEntry.under, Insertion.body,
      Insertion.shift, hopening, hf.start, isInInterface_same h ht, h.inAnyClass_eq ht, h.package_eq,
      ht.lineOf, ht.docstring_under]
  · refine .ok (hfindings ?_ .nil)
    simp [Insertion.SameDraft, ClassDraft.placed, ClassDraft.under, ClassEntry.under, Insertion.body,
      Insertion.shift, hopening, hf.start, isInInterface_same h ht, h.inAnyClass_eq ht, h.package_eq,
      ht.lineOf, ht.docstring_under]

theorem findType_agree (h : i.SameScan a b) (ht : i.Relates s t) (hf : i.Moves found found')
    (hm : typePattern.FoundIn s.masked (found.down i.before)) :
    Agree i.width i.Same (findType s a (found.down i.before)) (findType t b found') := by
  rw [findType.eq_def, findType.eq_def, Match.part?_down, Match.part?_down, hf.part?_eq, hf.part?_eq]
  cases found.part? .declaration with
  | none => exact .ok .nil
  | some declaration =>
    cases hname : found.part? .name with
    | none => exact .ok .nil
    | some name =>
      rw [Match.start_down, hf.start]
      refine (ht.startsAt _).bind_eq fun starts => ?_
      split
      · have hpart : (found.down i.before).part? .name = some (name.down i.before) := by
          rw [Match.part?_down, hname]
          rfl
        have hbody := ht.masked.bodyOpen?_eq name.stop
        rw [Capture.stop_down, Capture.stop_down, hbody, ht.masked'.bodyOpen?_eq]
        cases hopening : Statement.bodyOpen? i.live name.stop with
        | none => exact .ok .nil
        | some opening =>
          rw [hopening, ← Capture.stop_down] at hbody
          have hopen := (Statement.charAt?_bodyOpen? (hm.part_at hpart).1.isBoundary_stop hbody).1
          rw [ht.masked.charAt?_eq] at hopen
          exact typeFindings_agree h ht hf declaration name hopen
      · exact .ok .nil

/-! ## Methods -/

/-- A trailer so many bytes further down. -/
def Trailer.down (n : Nat) : Trailer → Trailer
  | .body opening => .body (opening + n)
  | .declaration stop => .declaration (stop + n)

/-- A body is told only where a brace opens. -/
def Trailer.Opens (live : List Char) : Trailer → Prop
  | .body opening => Text.charAt? live opening = some '\x7b'
  | .declaration _ => True

/-- What stands where a trailer stops. -/
def trailerAt? (masked : List Char) (stop : Nat) : Option Trailer :=
  match Text.charAt? masked stop with
  | some '\x7b' => some (.body stop)
  | some ';' => some (.declaration stop)
  | _ => none

theorem trailerAt?_behind {n : Nat} {live masked : List Char} (h : Text.Behind n live masked)
    (stop : Nat) : trailerAt? masked (stop + n) = (trailerAt? live stop).map (Trailer.down n) := by
  rw [trailerAt?, trailerAt?, h.charAt?_eq]
  split <;> rfl

theorem opens_of_trailerAt? {live : List Char} {stop : Nat} {trailer : Trailer}
    (h : trailerAt? live stop = some trailer) : trailer.Opens live := by
  rw [trailerAt?] at h
  split at h
  · next hbrace =>
    cases h
    exact hbrace
  · cases h
    trivial
  · cases h

theorem trailer?_agree (ht : i.Relates s t) (start : Nat) :
    Agree i.width
      (fun x y => ∃ trailer : Option Trailer, x = trailer.map (Trailer.down i.before) ∧
        y = trailer.map (Trailer.down i.after) ∧ ∀ found ∈ trailer, found.Opens i.live)
      (trailer? s.masked (start + i.before)) (trailer? t.masked (start + i.after)) := by
  have hstop : ∀ {n : Nat} {masked : List Char}, Text.Behind n i.live masked → ∀ stop : Option Nat,
      (stop.map (· + n)).bind (trailerAt? masked) =
        (stop.bind (trailerAt? i.live)).map (Trailer.down n) := by
    intro n masked hbehind stop
    cases stop with
    | none => rfl
    | some stop => exact trailerAt?_behind hbehind stop
  have hopens : ∀ stop : Option Nat, ∀ found ∈ stop.bind (trailerAt? i.live), found.Opens i.live := by
    intro stop found hfound
    obtain ⟨_, -, hat⟩ := Option.bind_eq_some_iff.mp (Option.mem_def.mp hfound)
    exact opens_of_trailerAt? hat
  rw [trailer?, trailer?, ht.masked.skipBlanks_eq, ht.masked'.skipBlanks_eq]
  refine (SourceText.tailFrom_behind ht.masked ht.masked' _).bind_eq fun rest => .ok ?_
  let start := Text.skipBlanks i.live start
  let stop := if Text.startsWith rest "throws".toList || Text.startsWith rest "default".toList then
    (Text.find? ['\x7b', ';'] rest).map (start + ·) else some start
  have hmoved : ∀ n, (if Text.startsWith rest "throws".toList || Text.startsWith rest "default".toList
      then (Text.find? ['\x7b', ';'] rest).map (start + n + ·) else some (start + n)) =
        stop.map (· + n) := by
    intro n
    dsimp only [stop]
    split
    · rw [Option.map_map]
      exact congrArg (Option.map · _) (funext fun width => Nat.add_right_comm _ n width)
    · rfl
  refine ⟨stop.bind (trailerAt? i.live), ?_, ?_, hopens stop⟩
  · rw [← hstop ht.masked, ← hmoved]
    rfl
  · rw [← hstop ht.masked', ← hmoved]
    rfl

theorem declaredReturn_agree (ht : i.Relates s t) (hf : i.Moves found found') :
    Agree i.width Eq (declaredReturn s (found.down i.before)) (declaredReturn t found') := by
  rw [declaredReturn, declaredReturn, Match.part?_down, hf.part?_eq]
  cases found.part? .type with
  | none => exact .ok rfl
  | some type =>
    rw [Option.map_some, Option.map_some]
    dsimp only
    rw [Capture.start_down, Capture.stop_down, Capture.start_down, Capture.stop_down]
    exact (ht.spelling _ _).map_eq some

theorem isMethodHere_same (h : i.SameScan a b) (ht : i.Relates s t) (hf : i.Moves found found')
    (name : Capture) (trailer : Trailer) :
    isMethodHere t b found' (name.down i.after) (trailer.down i.after) =
      isMethodHere s a (found.down i.before) (name.down i.before) (trailer.down i.before) := by
  rw [isMethodHere.eq_def, isMethodHere.eq_def, Match.start_down, hf.start, Match.part?_down,
    hf.part?_eq, Option.isSome_map, Option.isSome_map, h.atTopLevel_eq ht]
  obtain ⟨ha, hb⟩ | ⟨index, d, e, ha, hb, hde⟩ := h.classAt?_cases ht found.start
  · rw [ha, hb]
    cases trailer <;> rfl
  · rw [ha, hb]
    dsimp only
    rw [hde.name_eq]
    rfl

/-- Entries that are the same are recorded at the same place in both runs. -/
theorem entered_same (h : i.SameScan a b) (ht : i.Relates s t) (offset : Nat)
    {x y : FunctionEntry} (hxy : x.under i.aspect = y.under i.aspect.still) {fs gs : List Finding}
    (hs : i.Same fs gs) :
    i.Same
      (fs ++ [match a.classAt? s (offset + i.before) with
        | some (index, _) => .method index x
        | none => .function x])
      (gs ++ [match b.classAt? t (i.site offset) with
        | some (index, _) => .method index y
        | none => .function y]) := by
  refine hs.append ?_
  obtain ⟨ha, hb⟩ | ⟨index, d, e, ha, hb, -⟩ := h.classAt?_cases ht offset
  · rw [ha, hb]
    exact .function hxy
  · rw [ha, hb]
    exact .method index hxy

theorem defaultVisibility_same (h : i.SameScan a b) (ht : i.Relates s t) (offset : Nat) :
    (b.classAt? t (i.site offset)).map (fun (_, draft) => draft.defaultVisibility) =
      (a.classAt? s (offset + i.before)).map fun (_, draft) => draft.defaultVisibility := by
  obtain ⟨ha, hb⟩ | ⟨index, d, e, ha, hb, hde⟩ := h.classAt?_cases ht offset
  · rw [ha, hb]
  · rw [ha, hb]
    exact congrArg some hde.defaultVisibility_eq

theorem methodFindings_agree (h : i.SameScan a b) (ht : i.Relates s t) (hf : i.Moves found found')
    (declaration name : Capture) (start stop : Nat) {trailer : Trailer}
    (hopens : trailer.Opens i.live) :
    Agree i.width i.Same
      (methodFindings s a (found.down i.before) (declaration.down i.before) (name.down i.before)
        (start + i.before) (stop + i.before) (trailer.down i.before))
      (methodFindings t b found' (declaration.down i.after) (name.down i.after) (start + i.after)
        (stop + i.after) (trailer.down i.after)) := by
  rw [methodFindings, methodFindings, modifiersOf_down, modifiersOf_eq hf, Match.start_down, hf.start]
  refine (declaredReturn_agree ht hf).bind_eq fun returnType => ?_
  refine (ht.strippedPart _ _).bind_eq fun parametersText => ?_
  have htyped : ∀ n, ((found.down n).part? .type).isNone = (found.part? .type).isNone := by
    intro n
    rw [Match.part?_down, Option.isNone_map]
  cases trailer with
  | body opening =>
    refine (ht.body_some hopens).bind ?_
    rintro _ _ ⟨body, rfl, rfl⟩
    refine .ok (entered_same h ht found.start ?_ (ht.checkTerminated body name.text _))
    simp [FunctionEntry.under, Insertion.body, defaultVisibility_same h ht, h.scopeAt_eq ht, ht.lineOf,
      ht.docstring_under, hf.part?_eq]
  | declaration stop =>
    refine .ok (entered_same h ht found.start ?_ .nil)
    simp [FunctionEntry.under, Trailer.down, defaultVisibility_same h ht, h.scopeAt_eq ht, ht.lineOf,
      ht.docstring_under, hf.part?_eq]

theorem findMethod_agree (h : i.SameScan a b) (ht : i.Relates s t) (hf : i.Moves found found')
    (hne : i.live ≠ []) (hpos : 0 < found.stop) :
    Agree i.width i.Same (findMethod s a (found.down i.before)) (findMethod t b found') := by
  rw [findMethod.eq_def, findMethod.eq_def, Match.part?_down, Match.part?_down, hf.part?_eq,
    hf.part?_eq]
  cases found.part? .declaration with
  | none => exact .ok .nil
  | some declaration =>
    cases found.part? .name with
    | none => exact .ok .nil
    | some name =>
      rw [Match.start_down, hf.start]
      refine (ht.startsAt _).bind_eq fun starts => ?_
      rw [Match.text_down, hf.text_eq, Capture.text_down, Capture.text_down]
      split
      · exact .ok .nil
      · dsimp only
        rw [Match.stop_down_pred _ hpos, hf.stop_pred hpos, ht.masked.find_eq hne,
          ht.masked'.find_eq hne, Delimiter.Match.close_down, Delimiter.Match.close_down,
          Delimiter.Match.terminated_down, Delimiter.Match.terminated_down]
        split
        · rw [Nat.add_right_comm _ i.before 1, Nat.add_right_comm _ i.after 1]
          refine (trailer?_agree ht _).bind ?_
          rintro _ _ ⟨_ | trailer, rfl, rfl, hopens⟩
          · exact .ok .nil
          · dsimp only [Option.map_some]
            rw [isMethodHere_same h ht hf]
            split
            · rw [Nat.add_right_comm _ i.before 1, Nat.add_right_comm _ i.after 1]
              exact methodFindings_agree h ht hf declaration name _ _ (hopens _ rfl)
            · exact .ok .nil
        · exact .ok .nil

/-! ## Fields -/

theorem findField_agree (h : i.SameScan a b) (ht : i.Relates s t) (hf : i.Moves found found') :
    Agree i.width i.Same (findField s a (found.down i.before)) (findField t b found') := by
  rw [findField.eq_def, findField.eq_def, Match.part?_down, Match.part?_down, hf.part?_eq,
    hf.part?_eq, Match.start_down, hf.start]
  cases found.part? .type with
  | none => exact .ok .nil
  | some type =>
    cases found.part? .name with
    | none => exact .ok .nil
    | some name =>
      obtain ⟨ha, hb⟩ | ⟨index, d, e, ha, hb, hde⟩ := h.classAt?_cases ht found.start
      · rw [ha, hb]
        exact .ok .nil
      · rw [ha, hb]
        refine (ht.startsAt _).bind_eq fun starts => ?_
        rw [Capture.text_down, Capture.text_down, modifiersOf_down, modifiersOf_eq hf]
        split
        · exact .ok .nil
        · dsimp only
          rw [Capture.start_down, Capture.stop_down, Capture.start_down, Capture.start_down,
            Capture.stop_down, Capture.start_down]
          refine (ht.spelling _ _).bind_eq fun typeText => ?_
          refine (ht.declarators _ _).bind ?_
          rintro _ _ ⟨fields, rfl, rfl⟩
          refine .ok ?_
          rw [List.map_map, List.map_map]
          refine .map ?_
          rintro ⟨offset, fieldName, defaultValue⟩ -
          simp [Finding.placed, Finding.under?, Field.down, PropertyEntry.under, hde.kind_eq,
            hde.defaultVisibility_eq, ht.lineOf]

/-! ## Rules for the masked view -/

/-- A rule tells the same of a match of the common end and of the match that it moves to. -/
def Moving (i : Insertion) (rule : Rule) (s t : Subject) : Prop :=
  ∀ a b, i.SameScan a b → ∀ found found', i.Moves found found' →
    rule.pattern.FoundIn s.masked (found.down i.before) →
      Agree i.width i.Same (rule.apply s a (found.down i.before)) (rule.apply t b found')

theorem moving_of_masked (ht : i.Relates s t) (hne : i.live ≠ []) {rule : Rule}
    (hr : rule ∈ language.rules) (hv : rule.view = .masked) : Moving i rule s t := by
  simp only [language, List.mem_cons, List.not_mem_nil, or_false] at hr
  intro a b hab found found' hmoves hf
  rcases hr with rfl | rfl | rfl | rfl | rfl
  · exact findPackage_agree hab ht hmoves
  · cases hv
  · exact findType_agree hab ht hmoves hf
  · have hlt := hf.start_lt_stop (by decide)
    rw [Match.start_down, Match.stop_down] at hlt
    exact findMethod_agree hab ht hmoves hne (by omega)
  · exact findField_agree hab ht hmoves

end Java
end Outline

/-!
## Java further down

Each rule of Java tells the same of two subjects that differ by an aspect, as it does when
something is put in front of all of the second one.  Imports may be left out by an aspect.
-/

namespace Outline
namespace Java

open Finding (SameUnder)
open Insertion (agree_of_atStart atStart_moves atStart_sameScan)

variable {aspect : Aspect} {s t : Subject} {found : Match}

theorem findImport_agree (ht : Subject.Moved aspect s t) (a b : Scan) :
    Agree aspect.lines (SameUnder aspect) (findImport s a found)
      (findImport t b (found.down aspect.lines)) := by
  rw [findImport, findImport, Match.start_down, ht.masked]
  refine (SourceText.tailFrom_lower _ _ _).bind_eq fun live => ?_
  split
  · refine .ok (.single ?_)
    simp [Finding.under?, ImportEntry.under, ht.lineOf]
  · exact .ok .nil

/-! ### The language -/

/-- Each rule finds what it finds further down, if the one for imports does. -/
theorem agrees_of_mem_rules (ht : Subject.Moved aspect s t)
    (himport : Rule.Agrees aspect ⟨.full, importPattern, findImport⟩ s t) :
    ∀ rule ∈ language.rules, rule.Agrees aspect s t := by
  intro rule hr
  simp only [language, List.mem_cons, List.not_mem_nil, or_false] at hr
  rcases hr with rfl | rfl | rfl | rfl | rfl
  · exact Rule.agrees_of_masked ht (by decide) rfl fun a b h found _ _ _ => agree_of_atStart <|
      findPackage_agree (atStart_sameScan.mpr h) ht.relates (atStart_moves found)
  · exact himport
  · exact Rule.agrees_of_masked ht (by decide) rfl fun a b h found hf _ _ => agree_of_atStart <|
      findType_agree (atStart_sameScan.mpr h) ht.relates (atStart_moves found)
        (found.down_zero.symm ▸ hf)
  · exact Rule.agrees_of_masked ht (by decide) rfl fun a b h found _ hpos hs => agree_of_atStart <|
      findMethod_agree (atStart_sameScan.mpr h) ht.relates (atStart_moves found) hs hpos
  · exact Rule.agrees_of_masked ht (by decide) rfl fun a b h found _ _ _ => agree_of_atStart <|
      findField_agree (atStart_sameScan.mpr h) ht.relates (atStart_moves found)

theorem lowered_agrees (feeds : Nat) (text : List Char) :
    ∀ rule ∈ language.rules, rule.Agrees (.lowered feeds) (language.subject text)
      (language.subject (Text.lower feeds text)) := by
  have ht := language.subject_lower feeds text
  refine agrees_of_mem_rules ht (Rule.agrees_of_lower (by decide) (ht.text rfl) ?_)
  exact fun a b _ found _ => findImport_agree ht a b

theorem uncommented_agrees {text text' : List Char}
    (hm : Mask.masked language.maskRules text = Mask.masked language.maskRules text')
    (hs : Mask.stripped language.maskRules text = Mask.stripped language.maskRules text') :
    ∀ rule ∈ language.rules, rule.Agrees .uncommented (language.subject text)
      (language.subject text') := by
  -- An import may stand in a comment, so the two runs need not find the same ones.
  have himports : ∀ (text : List Char) (v : Aspect), v.bare = true → ∀ (scan : Scan),
      ∀ found ∈ importPattern.findAll text,
        Yields (findImport (language.subject text) scan found) fun fs =>
          ∀ f ∈ fs, f.under? v = none := by
    intro text v hv scan found hf
    rw [findImport_eq (Pattern.foundIn_of_mem_findAll hf)]
    refine .ok ?_
    split
    · simp [Finding.under?, hv]
    · simp
  refine agrees_of_mem_rules (Language.subject_uncommented hm hs) (Rule.agrees_of_silent ?_ ?_)
  · exact himports text _ rfl
  · exact himports text' _ rfl

end Java
end Outline
