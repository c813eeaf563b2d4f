import Outline.Extraction.Cpp.Rule
import Outline.Proofs.Extraction.Cpp.Trailer
import Outline.Proofs.Extraction.Language
import Outline.Proofs.Pattern.Found

/-!
# The recognizers of C++ never give up

Every offset that a recognizer cuts a view at is one where a match starts or
stops, or one where a delimiter, a comma or a name stands in the masked view.
-/

namespace Outline
namespace Cpp

open Finding (allMeet_nil allMeet_singleton)

variable {text : List Char} {subject : Subject} {scan : Scan} {found : Match}

/-! ## Includes, namespaces, linkage blocks and labels -/

theorem findInclude_yields (h : subject.Of text) :
    Yields (findInclude subject scan found) (Finding.AllMeet (.ofText text)) :=
  .ok (allMeet_singleton ⟨h.one_le_lineOf _, h.lineOf_le _⟩)

theorem findNamespace_yields (hf : namespacePattern.FoundIn subject.masked found) :
    Yields (findNamespace subject scan found) (Finding.AllMeet (.ofText text)) := by
  refine (Statement.startsAt_yields hf.whole_at.isBoundary_start false).bind fun starts _ => ?_
  split
  · exact .ok (allMeet_singleton trivial)
  · exact .ok allMeet_nil

theorem findLinkage_yields :
    Yields (findLinkage subject scan found) (Finding.AllMeet (.ofText text)) :=
  .ok (allMeet_singleton trivial)

theorem findLabel_yields :
    Yields (findLabel subject scan found) (Finding.AllMeet (.ofText text)) := by
  rw [findLabel]
  split
  · exact .ok allMeet_nil
  · split
    · exact .ok (allMeet_singleton trivial)
    · exact .ok allMeet_nil

/-! ## Classes -/

/-- In front of a `typedef` that ends what comes before a match there is a place
to cut the text, too. -/
theorem classStart_yields {masked : List Char} {start : Nat} (hs : Text.IsBoundary masked start) :
    Yields (classStart masked start) (Text.IsBoundary masked) := by
  refine (SourceText.headTo_yields hs).map fun before hbefore => ?_
  split
  · next rest hrest =>
    obtain ⟨after, hm, _⟩ := hbefore
    obtain ⟨blanks, hb⟩ := Text.trimEnd_append before
    rw [Text.eq_append_of_dropTrail? hrest, List.append_assoc] at hb
    exact ⟨rest, "typedef".toList ++ blanks ++ after, by rw [hm, hb, List.append_assoc], rfl⟩
  · exact hs

/-- The body of a class opens with a brace, at or after the tail of its match and
the start of the list of bases. -/
theorem charAt?_classBody? {masked : List Char} {tail : Capture} {opening basesStart : Nat}
    (ht : tail.At masked) (hb : classBody? masked tail = some (opening, basesStart)) :
    Text.charAt? masked opening = some '\x7b' ∧ Text.IsBoundary masked basesStart ∧
      basesStart ≤ opening ∧ tail.start ≤ opening := by
  rw [classBody?] at hb
  split at hb
  · next htext =>
    cases hb
    obtain ⟨before, after, hm, hw⟩ := ht
    rw [htext, List.append_assoc] at hm
    have hbrace : Text.charAt? masked tail.start = some '\x7b' :=
      Text.charAt?_eq_some_iff.mpr ⟨before, after, hm, hw⟩
    exact ⟨hbrace, (Text.isBoundary_of_char hm hw).1, Nat.le_refl _, Nat.le_refl _⟩
  · split at hb
    · simp at hb
    · obtain ⟨opening', ho, he⟩ := Option.map_eq_some_iff.mp hb
      cases he
      obtain ⟨hbrace, hle⟩ := Statement.charAt?_bodyOpen? ht.isBoundary_stop ho
      exact ⟨hbrace, ht.isBoundary_stop, hle, Nat.le_trans (Nat.le_add_right _ _) hle⟩

theorem classFindings_yields (h : subject.Of text) {declaration name : Capture}
    {opening basesStart : Nat} (hopen : Text.charAt? subject.masked opening = some '\x7b')
    (hbases : Text.IsBoundary subject.masked basesStart) (hle : basesStart ≤ opening)
    (hdecl : declaration.start ≤ opening) :
    Yields (classFindings subject scan found declaration name opening basesStart)
      (Finding.AllMeet (.ofText text)) := by
  have hbound : Text.IsBoundary subject.masked opening := by
    obtain ⟨before, after, hm, hw⟩ := Text.charAt?_eq_some_iff.mp hopen
    exact (Text.isBoundary_of_char hm hw).1
  refine (SourceText.part_yields hbases hbound hle).bind fun basesText _ => ?_
  refine (h.body_yields hopen).bind fun body hbody => .ok ?_
  have hlines := h.bodyLines hbody hopen hdecl
  exact .append (allMeet_singleton ⟨hlines, by simp, by simp⟩) (h.checkTerminated_meets _ _ _)

theorem findClass_yields (h : subject.Of text) (hf : classPattern.FoundIn subject.masked found) :
    Yields (findClass subject scan found) (Finding.AllMeet (.ofText text)) := by
  rw [findClass]
  split
  · next declaration name tail hdecl hname htail =>
    refine (classStart_yields hf.whole_at.isBoundary_start).bind fun start hstart => ?_
    refine (Statement.startsAt_yields hstart true).bind fun starts _ => ?_
    split
    · split
      · next opening basesStart hbody =>
        obtain ⟨hopen, hbases, hle, htle⟩ := charAt?_classBody? (hf.part_at htail).1 hbody
        have hbefore := hf.start_le_of_startsBefore (by decide) hdecl htail
        exact classFindings_yields h hopen hbases hle (Nat.le_trans hbefore htle)
      · exact .ok allMeet_nil
    · exact .ok allMeet_nil
  · exact .ok allMeet_nil

/-! ## Functions -/

theorem trailingReturn_yields {range : Nat × Nat} (hr : RangeIn subject.source.stripped range) :
    Yields (trailingReturn subject range) fun _ => True :=
  (Subject.spelling_yields hr.2.1 hr.2.2 hr.1).map fun _ _ => trivial

theorem returnTypeOf_yields {declared : Option (List Char)} {trailer : Trailer} {typeless : Bool}
    {modifiers : List (List Char)}
    (hr : ∀ range, trailer.returnRange = some range → RangeIn subject.source.stripped range) :
    Yields (returnTypeOf subject declared trailer typeless modifiers) fun _ => True := by
  unfold returnTypeOf
  split
  · next range hrange =>
    exact (trailingReturn_yields (hr range hrange)).map (Q := fun _ => True) fun _ _ => trivial
  · next range _ hrange =>
    split
    · exact (trailingReturn_yields (hr range hrange)).map (Q := fun _ => True) fun _ _ => trivial
    · exact .ok trivial
  · exact .ok trivial
  · split
    · exact .ok trivial
    · exact .ok trivial

/-- The type in front of a function's name can be spelled out. -/
theorem declaredReturn_yields (h : subject.Of text)
    (hf : functionPattern.FoundIn subject.masked found) {name : Capture}
    (hname : found.part? .name = some name) :
    Yields (declaredReturn subject found name) fun _ => True := by
  rw [declaredReturn]
  split
  · next type htype =>
    have hstart := h.isBoundary_part hf (by decide) htype
    have hstop := h.isBoundary_part hf (by decide) hname
    have hle := hf.start_le_of_startsBefore (by decide) htype hname
    exact (Subject.spelling_yields hstart hstop hle).map fun _ _ => trivial
  · exact .ok trivial

/-- The head of a function keeps what it was made from. -/
theorem findHead_yields {declaration name : Capture} {declared : Option (List Char)}
    {parametersStart parametersStop start : Nat} {trailer : Trailer}
    (ht : trailer.Good subject.source.stripped subject.masked start) :
    Yields (findHead subject scan found declaration name declared parametersStart parametersStop
        trailer) fun head =>
      ∀ head', head = some head' → head'.declaration = declaration ∧
        head'.parametersStart = parametersStart ∧ head'.parametersStop = parametersStop ∧
        head'.trailer = trailer := by
  rw [findHead]
  refine (returnTypeOf_yields ht.2).bind fun returnType _ => .ok ?_
  intro head' hhead
  obtain ⟨_, _, rfl⟩ := Option.map_eq_some_iff.mp hhead
  exact ⟨rfl, rfl, rfl, rfl⟩

/-- A function that passes its check does so wherever it is entered. -/
theorem allMeet_entered {checks : Checks} {entry : FunctionEntry} (he : checks.function entry)
    (owner : Option (Nat × ClassDraft)) (ending : Ending) :
    Finding.AllMeet checks (match owner, ending with
      | some (index, _), .pure _ => [.abstractClass index, .method index entry]
      | some (index, _), _ => [.method index entry]
      | none, _ => [.function entry]) := by
  split
  · exact .cons trivial (allMeet_singleton he)
  · exact allMeet_singleton he
  · exact allMeet_singleton he

/-- The body of a function or its last character comes after its start. -/
theorem functionFindings_yields (h : subject.Of text) {head : Head}
    (hp : subject.ParametersAt found head.declaration head.parametersStop)
    (hstart : head.parametersStart = found.stop - 1 + 1)
    (ht : head.trailer.Good subject.source.stripped subject.masked (head.parametersStop + 1)) :
    Yields (functionFindings subject scan found head) (Finding.AllMeet (.ofText text)) := by
  obtain ⟨declaration, name, receiver, modifiers, returnType, isConstructor, parametersStart,
    parametersStop, ⟨ending, range⟩⟩ := head
  obtain ⟨⟨hafter, hbrace⟩, _⟩ := ht
  dsimp only at hp hstart hafter hbrace
  have hdecl : declaration.start ≤ ending.offset := by
    have := hp.declared
    omega
  rw [functionFindings, hstart]
  refine (SourceText.part_yields hp.starts hp.stops hp.le).bind fun parametersText _ => ?_
  -- Without a body the function ends on the line of its semicolon.
  have hbare : ∀ stop, declaration.start ≤ stop →
      subject.lineOf declaration.start ≤ subject.lineOf stop ∧
        subject.lineOf stop ≤ text.count '\n' + 1 ∧ 1 ≤ 1 ∧ 1 ≤ 1 + Text.width text :=
    fun stop hle => ⟨h.lineOf_mono hle, h.lineOf_le _, Nat.le_refl _, Nat.le_add_right _ _⟩
  dsimp only
  cases ending with
  | body opening =>
    have hopen := hbrace opening rfl
    refine (h.body_yields hopen).some.bind fun result hresult => ?_
    obtain ⟨body, rfl, hbody⟩ := hresult
    obtain ⟨hfirst, hlines, hlast⟩ := h.bodyLines hbody hopen hdecl
    refine .ok ((h.checkTerminated_meets _ _ _).append (allMeet_entered ?_ _ _))
    exact ⟨hfirst, hlines, hlast, hbody.one_le_complexity, hbody.complexity_le⟩
  | bare stop =>
    refine .ok (allMeet_entered ?_ _ _)
    exact ⟨h.one_le_lineOf _, hbare stop hdecl⟩
  | pure stop =>
    refine .ok (allMeet_entered ?_ _ _)
    exact ⟨h.one_le_lineOf _, hbare stop hdecl⟩
  | defaulted stop =>
    refine .ok (allMeet_entered ?_ _ _)
    exact ⟨h.one_le_lineOf _, hbare stop hdecl⟩

theorem findFunction_yields (h : subject.Of text)
    (hf : functionPattern.FoundIn subject.masked found) :
    Yields (findFunction subject scan found) (Finding.AllMeet (.ofText text)) := by
  rw [findFunction]
  split
  · next declaration name hdecl hname =>
    refine (Statement.startsAt_yields hf.whole_at.isBoundary_start true).bind fun starts _ => ?_
    split
    · exact .ok allMeet_nil
    · refine (declaredReturn_yields h hf hname).bind fun declared _ => ?_
      split
      · exact .ok allMeet_nil
      · dsimp only
        split
        · next hterminated =>
          have hp := h.parametersAt hf (by decide) hdecl hname hterminated
          refine (trailer?_yields h.masked hp.goesOn).bind fun trailer? ht => ?_
          split
          · exact .ok allMeet_nil
          · next trailer =>
            have hgood := ht trailer rfl
            refine (findHead_yields hgood).bind fun head? hh => ?_
            split
            · exact .ok allMeet_nil
            · next head =>
              obtain ⟨hd, hstart, hstop, htrailer⟩ := hh head rfl
              split
              · refine functionFindings_yields h ?_ hstart ?_
                · rw [hd, hstop]
                  exact hp
                · rw [htrailer, hstop]
                  exact hgood
              · exact .ok allMeet_nil
        · exact .ok allMeet_nil
  · exact .ok allMeet_nil

/-! ## Fields -/

theorem findField_yields (h : subject.Of text) (hf : fieldPattern.FoundIn subject.masked found) :
    Yields (findField subject scan found) (Finding.AllMeet (.ofText text)) := by
  rw [findField]
  split
  · next type name index draft htype hname _ =>
    refine (Statement.startsAt_yields hf.whole_at.isBoundary_start true).bind fun starts _ => ?_
    split
    · exact .ok allMeet_nil
    · have hstart := h.isBoundary_part hf (by decide) htype
      have hnamed := h.isBoundary_part hf (by decide) hname
      have hle := hf.start_le_of_startsBefore (by decide) htype hname
      refine (Subject.spelling_yields hstart hnamed hle).bind fun typeText _ => ?_
      refine (h.declarators_yields declaratorName (hf.part_at hname).1.isBoundary_start
        hnamed).bind fun fields _ => .ok ?_
      intro finding hfinding
      obtain ⟨field, _, rfl⟩ := List.mem_map.mp hfinding
      exact ⟨h.one_le_lineOf _, h.lineOf_le _⟩
  · exact .ok allMeet_nil

/-! ## The language -/

/-- The rules run one after the other. -/
theorem scan_eq (subject : Subject) : language.scan subject =
    Rule.run ⟨.full, includePattern, findInclude⟩ subject .empty >>= fun scan =>
    Rule.run ⟨.masked, namespacePattern, findNamespace⟩ subject scan >>= fun scan =>
    Rule.run ⟨.masked, linkagePattern, findLinkage⟩ subject scan >>= fun scan =>
    Rule.run ⟨.masked, classPattern, findClass⟩ subject scan >>= fun scan =>
    Rule.run ⟨.masked, accessPattern, findLabel⟩ subject scan >>= fun scan =>
    Rule.run ⟨.masked, functionPattern, findFunction⟩ subject scan >>= fun scan =>
    Rule.run ⟨.masked, fieldPattern, findField⟩ subject scan := by
  simp only [Language.scan, language, List.foldlM_cons, List.foldlM_nil, bind_pure]

theorem ensures_of_mem_rules (text : List Char) :
    ∀ rule ∈ language.rules, rule.Ensures (.ofText text) (language.subject text) := by
  have h := language.subject_of text
  intro rule hr scan found hm
  have hf := Pattern.foundIn_of_mem_findAll hm
  simp only [language, List.mem_cons, List.not_mem_nil, or_false] at hr
  rcases hr with rfl | rfl | rfl | rfl | rfl | rfl | rfl <;> dsimp only
  · exact findInclude_yields h
  · exact findNamespace_yields hf
  · exact findLinkage_yields
  · exact findClass_yields h hf
  · exact findLabel_yields
  · exact findFunction_yields h hf
  · exact findField_yields h hf

end Cpp
end Outline
