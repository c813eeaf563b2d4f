import Mathlib.Data.Prod.Lex
import Outline.Proofs.Entry.Sorting
import Outline.Proofs.Extraction.Fresh
import Outline.Proofs.Extraction.Literal

/-!
# How a summary is put together

Functions, the members of each class, exports and diagnostics are what was recorded of them, put
in the order of their lines, and where lines are equal left in the order of recording.  The
exports are those of the exported classes that do not start inside of another class, and of the
exported functions.
-/

namespace Outline

/-- Where a diagnostic points to. -/
def Diagnostic.place (diagnostic : Diagnostic) : Nat ×ₗ Nat :=
  toLex (diagnostic.line, diagnostic.column)

theorem Scan.diagnosticLe_iff (a b : Diagnostic) : diagnosticLe a b = true ↔ a.place ≤ b.place := by
  rw [diagnosticLe, Diagnostic.place, Diagnostic.place, Prod.Lex.toLex_le_toLex]
  simp

/-! ## The summary -/

/-- A class without its members, and without what later findings may make of it. -/
def ClassEntry.given (entry : ClassEntry) : ClassEntry :=
  { entry with methods := [], properties := [], isAbstract := false }

/-- The exports of classes: of those that are exported and start inside of no class of a scan. -/
def classExports (scan : Scan) (starts : Nat → Nat) (classes : List ClassEntry) :
    List ExportEntry :=
  classes.zipIdx.filterMap fun indexed =>
    if indexed.1.isExported && !scan.inAnyClass (starts indexed.2) then
      some ⟨indexed.1.name, .classExport, indexed.1.startLine⟩
    else none

/-- The exports of functions that are exported. -/
def functionExports (functions : List FunctionEntry) : List ExportEntry :=
  (functions.filter (·.isExported)).map fun entry =>
    ⟨entry.qualifiedName, .functionExport, entry.startLine⟩

/-- A summary holds what was recorded for it, put in order.  The classes are those of a scan and
start at given offsets. -/
structure Summary.Assembled (summary : Summary) (scan : Scan) (starts : Nat → Nat)
    (recorded : List Finding) : Prop where
  functions : SortedFrom (·.startLine) (recorded.filterMap Finding.function?) summary.functions
  classes : summary.classes.map ClassEntry.given =
    (recorded.filterMap Finding.draft?).map (·.given.entry)
  methods : ∀ index entry, summary.classes[index]? = some entry →
    SortedFrom (·.startLine) (Finding.ofClass Finding.method? index recorded) entry.methods
  properties : ∀ index entry, summary.classes[index]? = some entry →
    SortedFrom (·.line) (Finding.ofClass Finding.property? index recorded) entry.properties
  owners : ∀ finding ∈ recorded, ∀ index, finding.owner? = some index →
    index < summary.classes.length
  exports : SortedFrom (·.line) (classExports scan starts summary.classes ++
    functionExports (recorded.filterMap Finding.function?)) summary.exports
  syntaxErrors : SortedFrom Diagnostic.place (recorded.filterMap Finding.error?)
    summary.syntaxErrors
  warnings : SortedFrom Diagnostic.place (recorded.filterMap Finding.warning?) summary.warnings

namespace Scan

theorem line_of_exportOfFunction? {entry : FunctionEntry} {told : ExportEntry}
    (h : exportOfFunction? entry = some told) : told.line = entry.startLine := by
  rw [exportOfFunction?] at h
  split at h
  · cases h
    rfl
  · cases h

theorem functionExports_eq (functions : List FunctionEntry) :
    functionExports functions = functions.filterMap exportOfFunction? := by
  rw [functionExports, ← List.filterMap_eq_map, List.filterMap_filter]
  refine List.filterMap_congr fun entry _ => ?_
  rw [exportOfFunction?]
  rfl

theorem classExports_eq {scan : Scan} {starts : Nat → Nat}
    (h : ∀ index draft, scan.classes[index]? = some draft →
      draft.nested = scan.inAnyClass (starts index)) :
    classExports scan starts (scan.classes.map finishClass) =
      scan.classes.filterMap exportOfClass? := by
  have hindexed := congrArg (List.filterMap exportOfClass?) (List.zipIdx_map_fst 0 scan.classes)
  rw [List.filterMap_map] at hindexed
  rw [classExports, List.zipIdx_map, List.filterMap_map, ← hindexed]
  refine List.filterMap_congr fun entry hmem => ?_
  have hnested := h entry.2 entry.1 (List.mem_zipIdx_iff_getElem?.mp hmem)
  rw [Function.comp_apply, Function.comp_apply, exportOfClass?, hnested]
  rfl

theorem functions_finish (scan : Scan) (language : String) :
    SortedFrom (·.startLine) scan.functions (scan.finish language).functions :=
  sortedFrom_mergeSort (fun _ _ => decide_eq_true_iff) _

theorem methods_finishClass (draft : ClassDraft) :
    SortedFrom (·.startLine) draft.entry.methods (finishClass draft).methods :=
  sortedFrom_mergeSort (fun _ _ => decide_eq_true_iff) _

theorem properties_finishClass (draft : ClassDraft) :
    SortedFrom (·.line) draft.entry.properties (finishClass draft).properties :=
  sortedFrom_mergeSort (fun _ _ => decide_eq_true_iff) _

/-- The functions are sorted before their exports are, which is the same as not sorting them. -/
theorem exports_finish (scan : Scan) (language : String) :
    SortedFrom (·.line) (scan.classes.filterMap exportOfClass? ++ functionExports scan.functions)
      (scan.finish language).exports := by
  have hmerged : SortedFrom ExportEntry.line
      (scan.classes.filterMap exportOfClass? ++
        (scan.finish language).functions.filterMap exportOfFunction?)
      (scan.finish language).exports :=
    sortedFrom_mergeSort (fun _ _ => decide_eq_true_iff) _
  have hfunctions := (functions_finish scan language).toReordered.filterMap
    fun _ _ => line_of_exportOfFunction?
  rw [functionExports_eq]
  exact ⟨hmerged.toReordered.trans (hfunctions.append_left _), hmerged.sorted⟩

/-- The lists of a summary that a scan is finished to. -/
theorem assembled_finish {events : List Event} {hints : List Finding} {starts : Nat → Nat}
    (language : String)
    (hlands : Finding.Lands 0 (events.flatMap Event.findings))
    (hempty : ∀ draft, .classBody draft ∈ events.flatMap Event.findings →
      draft.entry.methods = [] ∧ draft.entry.properties = [])
    (hnested : ∀ index draft, (after events).classes[index]? = some draft →
      draft.nested = (after events).inAnyClass (starts index))
    (hhints : Finding.Among [.error, .warning] hints) :
    (((after events).recordAll hints).finish language).Assembled (after events) starts
      (events.flatMap Event.findings ++ hints) := by
  -- The hints are recorded behind all findings, as one more stretch of them.
  generalize hrecorded : events.flatMap Event.findings ++ hints = recorded
  have hscan : (after events).recordAll hints = empty.recordAll recorded := by
    rw [after, ← recordAll_append, hrecorded]
  have hclasses : (empty.recordAll recorded).classes = (after events).classes := by
    rw [← hscan, classes_recordAll hhints]
  have hlands' : Finding.Lands 0 recorded := hrecorded ▸ Finding.lands_append.mpr
    ⟨hlands, Finding.lands_of_among hhints (by decide) (by decide) _⟩
  have hempty' : ∀ draft, .classBody draft ∈ recorded →
      draft.entry.methods = [] ∧ draft.entry.properties = [] := by
    intro draft hd
    rcases List.mem_append.mp (hrecorded ▸ hd) with hd | hd
    · exact hempty draft hd
    · exact absurd (show Finding.Kind.classBody ∈ _ from hhints _ hd) (by decide)
  have hfunctions : (empty.recordAll recorded).functions = recorded.filterMap Finding.function? :=
    functions_recordAll_eq recorded empty
  rw [hscan]
  refine
    { functions := hfunctions ▸ functions_finish _ language
      classes := ?_
      methods := fun index entry he => ?_
      properties := fun index entry he => ?_
      owners := fun finding hf index ho => ?_
      exports := ?_
      syntaxErrors := ?_
      warnings := ?_ }
  · have hgiven := congrArg (List.map ClassDraft.entry) (given_recordAll recorded empty)
    simp only [List.map_append, List.map_map] at hgiven
    show (List.map _ _).map _ = _
    rw [List.map_map]
    exact hgiven
  · obtain ⟨draft, hdraft, rfl⟩ := Option.map_eq_some_iff.mp (List.getElem?_map.symm.trans he)
    rw [← collects_methods.members_eq hlands' (fun draft hd => (hempty' draft hd).1) hdraft]
    exact methods_finishClass draft
  · obtain ⟨draft, hdraft, rfl⟩ := Option.map_eq_some_iff.mp (List.getElem?_map.symm.trans he)
    rw [← collects_properties.members_eq hlands' (fun draft hd => (hempty' draft hd).2) hdraft]
    exact properties_finishClass draft
  · have hlt := Finding.lt_of_lands hlands' hf ho
    rw [Nat.zero_add] at hlt
    show index < (List.map _ _).length
    rw [List.length_map, length_classes_recordAll]
    exact Nat.lt_add_left _ hlt
  · have hkept := classExports_eq hnested
    rw [← hclasses] at hkept
    show SortedFrom _ (classExports _ _ ((empty.recordAll recorded).classes.map finishClass) ++ _) _
    rw [hkept, ← hfunctions]
    exact exports_finish _ language
  · rw [show recorded.filterMap Finding.error? = (empty.recordAll recorded).errors from
      (errors_recordAll_eq recorded empty).symm]
    exact sortedFrom_mergeSort diagnosticLe_iff _
  · rw [show recorded.filterMap Finding.warning? = (empty.recordAll recorded).warnings from
      (warnings_recordAll_eq recorded empty).symm]
    exact sortedFrom_mergeSort diagnosticLe_iff _

end Scan

/-! ## Both languages -/

theorem Contained.countP_opensClass_le {subject : Subject} {scan : Scan} {events : List Event}
    (h : Contained subject scan events) (event : Event) (he : event ∈ events) :
    event.findings.countP Finding.opensClass ≤ 1 := by
  obtain ⟨before, later, hsplit⟩ := List.append_of_mem he
  exact (h.onePlace before event later hsplit).1

namespace Language

variable {language : Language} {events : List Event}

/-- A class of a run is nested if its declaration starts inside of some class. -/
theorem Run.nested_of_classFrom {subject : Subject} (h : language.Run subject events)
    (ht : ∀ rule ∈ language.rules, rule.TellsOrderly subject) (hc : language.HasClassRule)
    (hone : ∀ event ∈ events, event.findings.countP Finding.opensClass ≤ 1) {index start : Nat}
    (hfrom : ClassFrom events index start) {draft : ClassDraft}
    (hd : (Scan.after events).classes[index]? = some draft) :
    draft.nested = (Scan.after events).inAnyClass start := by
  obtain ⟨before, event, later, told, hsplit, rfl, rfl, htold⟩ := hfrom
  rw [← h.nested_eq ht hc hsplit htold]
  rw [hsplit] at hd
  have hgiven := given_of_classFrom htold (hone event (by simp [hsplit])) hd
  show draft.given.nested = told.given.nested
  rw [hgiven]

/-- The summary of a text that can be read is that of a scan and the hints of the line checks. -/
theorem exists_scan {text : List Char}
    (h : ((Extractor.ofLanguage language).parse text).isFailure = false) :
    ∃ scan, language.scan (language.subject text) = .ok scan ∧
      (Extractor.ofLanguage language).parse text =
        (scan.recordAll (language.hints (language.subject text))).finish language.id := by
  have hextract : language.extract text = _ := Extractor.extract_of_not_failure h
  rw [Language.extract] at hextract
  cases hscan : language.scan (language.subject text) with
  | error e =>
    rw [hscan] at hextract
    cases hextract
  | ok scan =>
    rw [hscan] at hextract
    exact ⟨scan, rfl, (Except.ok.inj hextract).symm⟩

/-- The rules of a language are orderly on a text, and find its classes with one of them. -/
structure IsOrderly (language : Language) (text : List Char) : Prop where
  tells : ∀ rule ∈ language.rules, rule.TellsOrderly (language.subject text)
  classRule : language.HasClassRule

theorem isOrderly (hl : language = Java.language ∨ language = Cpp.language) (text : List Char) :
    language.IsOrderly text := by
  rcases hl with rfl | rfl
  · exact ⟨Java.tellsOrderly text, Java.hasClassRule⟩
  · exact ⟨Cpp.tellsOrderly text, Cpp.hasClassRule⟩

end Language

namespace Registry

/-- Nothing is lost on the way to a summary.  When a text can be read, what the rules and the line
checks recorded of it fills the lists of its summary, each in the order of its lines, or of lines
and columns for diagnostics, and where these are equal in the order of recording.  The exports are
those of the exported classes whose declaration starts inside of no class of the text, and those
of the exported functions. -/
theorem assembled {language : Language}
    (hl : language = Java.language ∨ language = Cpp.language) (text : List Char)
    (h : ((Extractor.ofLanguage language).parse text).isFailure = false) :
    ∃ events starts, language.Run (language.subject text) events ∧
      (∀ index < ((Extractor.ofLanguage language).parse text).classes.length,
        ClassFrom events index (starts index)) ∧
      ((Extractor.ofLanguage language).parse text).Assembled (Scan.after events) starts
        (events.flatMap Event.findings ++ language.hints (language.subject text)) := by
  obtain ⟨htells, hclassRule⟩ := Language.isOrderly hl text
  obtain ⟨scan, hscan, hsummary⟩ := Language.exists_scan h
  obtain ⟨events, hrun, rfl, hcontained⟩ := Language.contained_of_scan hl text hscan
  have hone := hcontained.countP_opensClass_le
  have hstart : ∀ index < (Scan.after events).classes.length,
      ∃ start, ClassFrom events index start := fun index hlt => exists_classFrom hone hlt
  choose! starts hstarts using hstart
  have hhints := Language.hints_among language (language.subject text)
  rw [hsummary]
  refine ⟨events, starts, hrun, fun index hlt => hstarts index ?_,
    Scan.assembled_finish language.id
      (hrun.lands htells)
      (fun draft hd => ?_) (fun index draft hd => ?_) hhints⟩
  · have hlength := congrArg List.length (Scan.classes_recordAll hhints (Scan.after events))
    exact lt_of_lt_of_eq (hlt.trans_eq (List.length_map _)) hlength
  · obtain ⟨scan, start, hfresh⟩ := hrun.exists_fresh htells hd
    exact ⟨hfresh.methods, hfresh.properties⟩
  · exact hrun.nested_of_classFrom htells hclassRule hone
      (hstarts index (List.getElem?_eq_some_iff.mp hd).1) hd

/-- A class inside of another one is not exported. -/
theorem assembled_nested :
    (Registry.cpp.parse "struct A \x7b struct B \x7b int f(); \x7d; \x7d;".toList).exports =
        [⟨"A", .classExport, 1⟩] ∧
      ∃ events starts,
        Cpp.language.Run (Cpp.language.subject
          "struct A \x7b struct B \x7b int f(); \x7d; \x7d;".toList) events ∧
        (∀ index < (Registry.cpp.parse
            "struct A \x7b struct B \x7b int f(); \x7d; \x7d;".toList).classes.length,
          ClassFrom events index (starts index)) ∧
        (Registry.cpp.parse "struct A \x7b struct B \x7b int f(); \x7d; \x7d;".toList).Assembled
          (Scan.after events) starts (events.flatMap Event.findings ++ Cpp.language.hints
            (Cpp.language.subject "struct A \x7b struct B \x7b int f(); \x7d; \x7d;".toList)) :=
  ⟨by decide +kernel, assembled (.inr rfl) _ (cpp_parse_not_failure _)⟩

end Registry
end Outline
