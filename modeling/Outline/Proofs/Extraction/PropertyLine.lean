import Outline.Proofs.Extraction.Declarator
import Outline.Proofs.Extraction.Java.Front
import Outline.Proofs.Extraction.Kind
import Outline.Proofs.Extraction.Registry

/-!
# The lines of properties

A constant of an enum and the first field of a declaration are given the line of their names.  A
component of a record is given the line on which the components start, and every further field
the line of the comma in front of it: where a list goes over lines, its names come further down.
-/

namespace Outline

open Finding (AllMeet allMeet_nil)
open Parameter (isDollarStart Unbroken)
open Pattern (Matches)

/-- The name of a property stands at a place of a text, or in a list behind it, and the property
has the line of the place. -/
def PropertyEntry.Stands (text : List Char) (entry : PropertyEntry) : Prop :=
  ∃ offset, StandsFrom text offset entry.name.toList ∧
    entry.line = (LineIndex.ofText text).lineOf offset

/-- Only properties are checked. -/
def Checks.ofProperties (property : PropertyEntry → Prop) : Checks where
  function _ := True
  classLines _ _ := True
  property := property
  imported _ := True
  diagnostic _ := True

/-- Findings other than classes and properties need no check. -/
theorem Finding.allMeet_ofProperties {P : PropertyEntry → Prop} {kinds : List Finding.Kind}
    {findings : List Finding} (h : Finding.Among kinds findings) (hp : Kind.property ∉ kinds)
    (hc : Kind.classBody ∉ kinds) : AllMeet (.ofProperties P) findings := by
  intro finding hf
  have hkind := h finding hf
  cases finding with
  | classBody => exact absurd hkind hc
  | property => exact absurd hkind hp
  | package | imported | block | label | abstractClass | method | function | error | warning =>
    trivial

theorem Finding.allMeet_map_property {P : PropertyEntry → Prop} {α : Type} {entries : List α}
    {index : Nat} {entry : α → PropertyEntry} (h : ∀ a ∈ entries, P (entry a)) :
    AllMeet (.ofProperties P) (entries.map fun a => .property index (entry a)) := by
  intro finding hf
  obtain ⟨a, ha, rfl⟩ := List.mem_map.mp hf
  exact h a ha

theorem Finding.allMeet_classBody {P : PropertyEntry → Prop} {draft : ClassDraft}
    (hm : draft.entry.methods = []) (hp : draft.entry.properties = []) :
    AllMeet (.ofProperties P) [.classBody draft] :=
  Finding.allMeet_singleton ⟨trivial, by simp [hm], by simp [hp]⟩

theorem checkTerminated_meet {P : PropertyEntry → Prop} (subject : Subject) (body : Body)
    (name : List Char) (offset : Nat) :
    AllMeet (.ofProperties P) (subject.checkTerminated body name offset) := by
  have hamong : Finding.Among [.warning] (subject.checkTerminated body name offset) :=
    Finding.among_checkTerminated List.mem_cons_self subject body name offset
  exact Finding.allMeet_ofProperties hamong (by decide) (by decide)

variable {text : List Char} {subject : Subject} {scan : Scan} {found : Match}

theorem Subject.Of.lineOf_eq (h : subject.Of text) (offset : Nat) :
    subject.lineOf offset = (LineIndex.ofText text).lineOf offset := by
  rw [lineOf, SourceText.lineOf, h.index]

/-! ## Java -/

namespace Java

theorem leadsWithName_leadingName : LeadsWithName leadingName := by
  refine leadsWithName_of_front (fun c => Parameter.isDollarChar_of_isDollarStart) (by decide)
    fun previous rest d ms hm => ?_
  obtain ⟨e, _, _, hm, hannotations, -⟩ := hm.of_seq
  obtain ⟨e₀, _, _, hstart, hblanks, -⟩ := hm.of_seq
  obtain ⟨rfl, hnone⟩ := hstart.of_textStart
  obtain ⟨blanks, hblank, hread⟩ := hblanks.of_run
  obtain ⟨marks, hmarks⟩ := hannotations.reads
  refine ⟨hnone, blanks ++ marks, hread.trans hmarks, fun c hc => ?_⟩
  cases blanks with
  | cons a blanks =>
    obtain rfl : a = c := Option.some.inj hc
    exact Parameter.isDollarStart_of_isBlank (hblank a List.mem_cons_self)
  | nil =>
    by_cases hat : e.rest.head? = some '@'
    · cases marks with
      | nil => exact nomatch hc
      | cons a marks =>
        obtain rfl : a = c := Option.some.inj hc
        rw [hmarks.1] at hat
        obtain rfl : a = '@' := Option.some.inj hat
        rfl
    · obtain rfl := of_annotations hat hannotations
      obtain rfl : marks = [] := by simpa using hmarks.1
      exact nomatch hc

/-- The components of a record start behind a parenthesis. -/
theorem charAt?_headerStart {masked : List Char} {kind : ClassKind} {nameStop start stop : Nat}
    (h : (headerStart masked kind nameStop).2 = some (start, stop)) :
    ∃ cursor, Text.charAt? masked cursor = some '(' ∧ start = cursor + 1 := by
  unfold headerStart at h
  extract_lets first cursor close at h
  split at h
  · next hparen =>
    obtain ⟨rfl, -⟩ := Prod.mk.inj (Option.some.inj h)
    exact ⟨cursor, hparen.2, rfl⟩
  · exact nomatch h

theorem recordComponents_stand (h : subject.Of text) (index : Nat) (kind : ClassKind)
    (nameStop : Nat) :
    Allows (recordComponents subject index (headerStart subject.masked kind nameStop).2)
      (AllMeet (.ofProperties (PropertyEntry.Stands text))) := by
  cases hrange : (headerStart subject.masked kind nameStop).2 with
  | none => exact .ok allMeet_nil
  | some range =>
    obtain ⟨cursor, hparen, hstart⟩ := charAt?_headerStart hrange
    refine (SourceText.part_allows _ _ _).bind fun part hpart => .ok ?_
    refine Finding.allMeet_map_property fun component hcomponent => ?_
    obtain ⟨hmem, hnamed⟩ := List.mem_filter.mp hcomponent
    obtain ⟨⟨gap, behind, hinside⟩, hunbroken⟩ := Parameter.infix_of_mem_ofList hmem
    obtain ⟨before, after, hstripped, hw⟩ := hpart
    have hne : component.name.toList ≠ [] := by simpa using hnamed
    have hopen := h.masked.charAt? (by decide) hparen
    rw [hstripped] at hopen
    refine ⟨_, StandsFrom.of_blanks h.stripped ⟨hne, hunbroken, before, gap, behind ++ after, ?_, hw,
      .inr ⟨'(', by decide, StandsFrom.getLast?_of_charAt? hopen (hw.trans hstart)⟩⟩, h.lineOf_eq _⟩
    rw [hstripped, ← hinside]
    simp only [List.append_assoc]

theorem enumConstants_stand (h : subject.Of text) (index opening : Nat) (enumName : List Char) :
    Allows (enumConstants subject index opening enumName)
      (AllMeet (.ofProperties (PropertyEntry.Stands text))) := by
  refine (SourceText.part_allows _ _ _).bind fun list hlist => .ok ?_
  obtain ⟨before, after, hmasked, hw⟩ := hlist
  intro finding hf
  obtain ⟨⟨offset, piece⟩, hentry, hpiece⟩ := List.mem_filterMap.mp hf
  obtain ⟨name, hname, rfl⟩ := Option.map_eq_some_iff.mp hpiece
  obtain ⟨found, hfound, hpart⟩ := Option.bind_eq_some_iff.mp hname
  have hled := Pattern.foundIn_of_findFrom [] hfound
  rw [← hw] at hentry
  obtain ⟨front, back, hlist, rfl, -, -⟩ := Subject.mem_piecesWithOffsets before hentry
  obtain ⟨lead, trail, htext, hlead⟩ := (hled.part_at hpart).1
  rw [List.nil_append] at htext
  have hstands : StandsFrom subject.masked (Text.width front + name.start) name.text := by
    refine ⟨?_, Parameter.unbroken_part hled (by decide) hpart, front ++ lead, [],
      trail ++ (back ++ after), ?_, ?_, .inl rfl⟩
    · obtain ⟨hlt, -⟩ := hled.char_of_partAvoids ' ' (by decide) hpart
      rw [Capture.stop] at hlt
      intro hnil
      rw [hnil] at hlt
      exact absurd hlt (Nat.lt_irrefl _)
    · rw [join_splitTopLevel] at hlist
      rw [Subject.masked, hmasked, ← List.append_assoc, hlist, htext]
      simp only [List.append_assoc, List.nil_append]
    · rw [Text.width_append, hlead]
  refine ⟨Text.width front + name.start, ?_, h.lineOf_eq _⟩
  rw [String.toList_ofList]
  exact (hstands.of_blanks h.masked).of_blanks h.stripped

theorem typeFindings_stand (h : subject.Of text) {declaration name : Capture} {opening : Nat} :
    Allows (typeFindings subject scan found declaration name opening)
      (AllMeet (.ofProperties (PropertyEntry.Stands text))) := by
  rw [typeFindings]
  refine (allows_true _).bind fun header _ => (allows_true _).bind fun supertypes _ => ?_
  refine (allows_true _).bind fun body _ => ?_
  refine (recordComponents_stand h _ _ _).bind fun components hcomponents => ?_
  have hall : ∀ draft : ClassDraft, draft.entry.methods = [] → draft.entry.properties = [] →
      ∀ constants, AllMeet (.ofProperties (PropertyEntry.Stands text)) constants →
        AllMeet (.ofProperties (PropertyEntry.Stands text)) ([.classBody draft]
          ++ subject.checkTerminated body name.text declaration.start ++ components ++ constants) :=
    fun draft hm hp constants hconstants =>
      (((Finding.allMeet_classBody hm hp).append (checkTerminated_meet _ _ _ _)).append
        hcomponents).append hconstants
  dsimp only
  split
  · refine (enumConstants_stand h _ _ _).bind fun constants hconstants => .ok ?_
    exact hall _ rfl rfl _ hconstants
  · exact .ok (hall _ rfl rfl _ allMeet_nil)

theorem findType_stand (h : subject.Of text) : Allows (findType subject scan found)
    (AllMeet (.ofProperties (PropertyEntry.Stands text))) := by
  rw [findType]
  split
  · refine (allows_true _).bind fun starts _ => ?_
    split
    · split
      · exact typeFindings_stand h
      · exact .ok allMeet_nil
    · exact .ok allMeet_nil
  · exact .ok allMeet_nil

theorem findField_stand (h : subject.Of text) (hf : fieldPattern.FoundIn subject.masked found) :
    Allows (findField subject scan found) (AllMeet (.ofProperties (PropertyEntry.Stands text))) := by
  rw [findField]
  split
  · next type name index draft htype hname _ =>
    refine (allows_true _).bind fun starts _ => ?_
    split
    · exact .ok allMeet_nil
    · refine (allows_true _).bind fun typeText _ => ?_
      obtain ⟨c, hc, hstart⟩ :=
        hf.charAt?_name rfl (fun c => Parameter.isDollarChar_of_isDollarStart) hname
      refine (h.declarators_stand leadsWithName_leadingName hstart hc).bind
        fun fields hfields => .ok ?_
      refine Finding.allMeet_map_property fun field hfield => ⟨field.1, ?_, h.lineOf_eq _⟩
      rw [String.toList_ofList]
      exact hfields field hfield
  · exact .ok allMeet_nil

theorem properties_stand (text : List Char) : ∀ rule ∈ language.rules,
    rule.Gives (.ofProperties (PropertyEntry.Stands text)) (language.subject text) := by
  have h := language.subject_of text
  intro rule hr scan found hm
  have hf := Pattern.foundIn_of_mem_findAll hm
  simp only [language, List.mem_cons, List.not_mem_nil, or_false] at hr
  rcases hr with rfl | rfl | rfl | rfl | rfl <;> dsimp only
  · exact findPackage_among.mono fun _ hk => Finding.allMeet_ofProperties hk (by decide) (by decide)
  · exact findImport_among.mono fun _ hk => Finding.allMeet_ofProperties hk (by decide) (by decide)
  · exact findType_stand h
  · exact findMethod_among.mono fun _ hk => Finding.allMeet_ofProperties hk (by decide) (by decide)
  · exact findField_stand h hf

end Java

/-! ## C++ -/

namespace Cpp

theorem leadsWithName_declaratorName : LeadsWithName declaratorName := by
  refine leadsWithName_of_front (fun c => Parameter.isWordChar_of_isNameStart) (by decide)
    fun previous rest d ms hm => ?_
  obtain ⟨e, _, _, hstart, hrun, -⟩ := hm.of_seq
  obtain ⟨rfl, hnone⟩ := hstart.of_textStart
  obtain ⟨gap, hgap, hread⟩ := hrun.of_run
  refine ⟨hnone, gap, hread, fun c hc => ?_⟩
  rcases Bool.or_eq_true_iff.mp (hgap c (List.mem_of_head? hc)) with hblank | hmark
  · exact Parameter.isDollarStart_of_isBlank hblank
  · rcases Bool.or_eq_true_iff.mp hmark with hmark | hmark
    · rw [beq_iff_eq.mp hmark]
      rfl
    · rw [beq_iff_eq.mp hmark]
      rfl

theorem findClass_stand : Allows (findClass subject scan found)
    (AllMeet (.ofProperties (PropertyEntry.Stands text))) := by
  rw [findClass]
  split
  · refine (allows_true _).bind fun start _ => (allows_true _).bind fun starts _ => ?_
    split
    · split
      · refine (allows_true _).bind fun bases _ => (allows_true _).bind fun body _ => .ok ?_
        exact (Finding.allMeet_classBody rfl rfl).append (checkTerminated_meet _ _ _ _)
      · exact .ok allMeet_nil
    · exact .ok allMeet_nil
  · exact .ok allMeet_nil

theorem findField_stand (h : subject.Of text) (hf : fieldPattern.FoundIn subject.masked found) :
    Allows (findField subject scan found) (AllMeet (.ofProperties (PropertyEntry.Stands text))) := by
  rw [findField]
  split
  · next type name index draft htype hname _ =>
    refine (allows_true _).bind fun starts _ => ?_
    split
    · exact .ok allMeet_nil
    · refine (allows_true _).bind fun typeText _ => ?_
      obtain ⟨c, hc, hstart⟩ :=
        hf.charAt?_name rfl (fun c => Parameter.isWordChar_of_isNameStart) hname
      have hdollar : isDollarStart c = true := Bool.or_eq_true_iff.mpr (.inl hstart)
      refine (h.declarators_stand leadsWithName_declaratorName hdollar hc).bind
        fun fields hfields => .ok ?_
      refine Finding.allMeet_map_property fun field hfield => ⟨field.1, ?_, h.lineOf_eq _⟩
      rw [String.toList_ofList]
      exact hfields field hfield
  · exact .ok allMeet_nil

theorem properties_stand (text : List Char) : ∀ rule ∈ language.rules,
    rule.Gives (.ofProperties (PropertyEntry.Stands text)) (language.subject text) := by
  have h := language.subject_of text
  intro rule hr scan found hm
  have hf := Pattern.foundIn_of_mem_findAll hm
  simp only [language, List.mem_cons, List.not_mem_nil, or_false] at hr
  rcases hr with rfl | rfl | rfl | rfl | rfl | rfl | rfl <;> dsimp only
  · exact findInclude_among.mono fun _ hk => Finding.allMeet_ofProperties hk (by decide) (by decide)
  · exact findNamespace_among.mono fun _ hk => Finding.allMeet_ofProperties hk (by decide) (by decide)
  · exact findLinkage_among.mono fun _ hk => Finding.allMeet_ofProperties hk (by decide) (by decide)
  · exact findClass_stand
  · exact findLabel_among.mono fun _ hk => Finding.allMeet_ofProperties hk (by decide) (by decide)
  · exact findFunction_among.mono fun _ hk => Finding.allMeet_ofProperties hk (by decide) (by decide)
  · exact findField_stand h hf

end Cpp
/-! ## Summaries -/

/-- The row with the name of a property is the one that its line numbers, or comes behind it by
the line feeds of a list in front of the name. -/
theorem PropertyEntry.Stands.exists_row {entry : PropertyEntry} (h : entry.Stands text) :
    ∃ before gap after row, text = before ++ (gap ++ (entry.name.toList ++ after)) ∧
      entry.line = before.count '\n' + 1 ∧
      (gap = [] ∨ ∃ mark ∈ listMarks, before.getLast? = some mark) ∧
      (Text.splitAt '\n' text)[entry.line - 1 + gap.count '\n']? = some row ∧
      entry.name.toList <:+: row := by
  obtain ⟨offset, hstands, hline⟩ := h
  obtain ⟨before, gap, after, htext, hrow, hgap, row, hget, hin⟩ := hstands.exists_row
  rw [hrow] at hline
  refine ⟨before, gap, after, row, htext, hline, hgap, ?_, hin⟩
  rw [hline, Nat.add_sub_cancel]
  exact hget

theorem Language.extract_properties {language : Language} {P : PropertyEntry → Prop} {text : List Char}
    (h : ∀ rule ∈ language.rules, rule.Gives (.ofProperties P) (language.subject text)) :
    Allows (language.extract text) (Summary.Meets (.ofProperties P)) := by
  refine (scan_allows h).bind fun scan hs => .ok ?_
  have hhints : AllMeet (.ofProperties P) (language.hints (language.subject text)) :=
    Finding.allMeet_ofProperties (hints_among language _) (by decide) (by decide)
  exact (hs.recordAll hhints).finish language.id

theorem Extractor.parse_properties {extractor : Extractor} {P : PropertyEntry → Prop}
    (h : Allows (extractor.extract text) (Summary.Meets (.ofProperties P))) :
    ∀ entry ∈ (extractor.parse text).classes, ∀ property ∈ entry.properties, P property := by
  rw [parse]
  split
  · next summary hok => exact fun entry he => ((h summary hok).classes entry he).properties
  · exact fun entry he => absurd he List.not_mem_nil

namespace Registry

end Registry
end Outline
