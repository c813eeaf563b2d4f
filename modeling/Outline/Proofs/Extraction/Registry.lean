import Outline.Extraction.Registry
import Outline.Proofs.Extraction.Cpp.Rule
import Outline.Proofs.Extraction.Java.Rule

/-!
# What the built-in extractors promise

The C++ extractor gives a summary of every text.  Whatever a built-in extractor
gives, a failure included, names only lines and columns that the text has.
-/

namespace Outline

/-! ## Summaries without failure -/

theorem Summary.Meets.isFailure_eq_false {text : List Char} {summary : Summary}
    (h : summary.Meets (.ofText text)) : summary.isFailure = false := by
  rw [Summary.isFailure, List.any_eq_false]
  intro diagnostic hd
  simpa using (h.errors diagnostic hd).2.2.2

theorem Extractor.parse_eq {extractor : Extractor} {text : List Char} {summary : Summary}
    (h : extractor.extract text = .ok summary) : extractor.parse text = summary := by
  rw [Extractor.parse, h]

/-- The entries of a summary that meets the checks of a text are no more complex
than the text is wide. -/
theorem Summary.Meets.complexity_le {text : List Char} {summary : Summary}
    (h : summary.Meets (.ofText text)) :
    ∀ entry ∈ summary.allFunctions, entry.complexity ≤ 1 + Text.width text := by
  intro entry he
  rcases List.mem_append.mp he with he | he
  · exact (h.functions entry he).2.2.2.2
  · obtain ⟨class', hc, he⟩ := List.mem_flatMap.mp he
    exact ((h.classes class' hc).methods entry he).2.2.2.2

/-- Complexities of a text of less than two gigabytes fit unsigned words of 32 bits. -/
theorem Summary.Meets.complexity_lt_size {text : List Char} {summary : Summary}
    (h : summary.Meets (.ofText text)) (hsize : Text.width text < 2147483648) :
    ∀ entry ∈ summary.allFunctions, entry.complexity < UInt32.size := by
  intro entry he
  have hle := h.complexity_le entry he
  have hwords : UInt32.size = 4294967296 := rfl
  omega

/-- Where every pattern reads something, no rule has an empty match. -/
theorem Language.start_lt_stop {language : Language}
    (h : (language.rules.all fun rule => rule.pattern.consumes) = true) (subject : Subject) :
    ∀ rule ∈ language.rules, ∀ found ∈ rule.pattern.findAll (rule.text subject.source),
      found.start < found.stop := fun rule hr _ hf =>
  (Pattern.foundIn_of_mem_findAll hf).start_lt_stop (List.all_eq_true.mp h rule hr)

/-- The counts of open groups in parts of a text of less than two gigabytes fit signed words of
32 bits. -/
theorem splits_fit {text : List Char} (h : Text.width text < 2147483648) :
    ∀ part, Text.width part ≤ Text.width text →
      splitTopLevelInWords? ',' .outside [] part = some (splitTopLevel ',' part) ∧
        splitDefaultInWords? 0 [] part = some (splitDefault part) := by
  intro part hpart
  have hlen := Text.length_le_width part
  refine ⟨splitTopLevelInWords?_eq ?_ ?_, splitDefaultInWords?_eq 0 ?_⟩
  · show (0 : Int).natAbs + part.length ≤ 2147483647
    omega
  · show 0 + part.length ≤ 2147483647
    omega
  · omega

namespace Cpp

/-- The extraction of a text of less than two gigabytes succeeds.  The summary
reports no failure, and no complexity in it leaves an unsigned word of 32 bits.
On the way no match is empty, so the offset before its end exists; the counts of
open groups in any part of the text fit signed words; and a declaration is cut
only between two of its characters. -/
theorem extract_succeeds (text : List Char) (h : Text.width text < 2147483648) :
    (∃ summary, language.extract text = .ok summary ∧ Registry.cpp.parse text = summary ∧
      summary.isFailure = false ∧ ∀ entry ∈ summary.allFunctions, entry.complexity < UInt32.size) ∧
    (∀ rule ∈ language.rules,
      ∀ found ∈ rule.pattern.findAll (rule.text (language.subject text).source),
        found.start < found.stop) ∧
    (∀ part, Text.width part ≤ Text.width text →
      splitTopLevelInWords? ',' .outside [] part = some (splitTopLevel ',' part) ∧
        splitDefaultInWords? 0 [] part = some (splitDefault part)) ∧
    ∀ (pattern : Pattern) (declaration : List Char) (name : Capture),
      (pattern.find? declaration).bind (·.part? .name) = some name →
        Text.IsBoundary declaration name.start ∧ Text.IsBoundary declaration name.stop := by
  obtain ⟨summary, hok, hmeets⟩ := Language.extract_yields (ensures_of_mem_rules text)
  exact ⟨⟨summary, hok, Extractor.parse_eq hok, hmeets.isFailure_eq_false,
      hmeets.complexity_lt_size h⟩, Language.start_lt_stop (by decide) _, splits_fit h,
    fun _ _ _ hname => Pattern.isBoundary_of_find?_part hname⟩

/-- A class that is cut off inside of a parameter list still has a summary. -/
theorem extract_succeeds_cut_off : ∃ summary,
    language.extract "struct \u00c4 \x7b int f(\u00fc".toList = .ok summary ∧
      summary.isFailure = false := by
  obtain ⟨⟨summary, hok, _, hfailure, _⟩, _⟩ :=
    extract_succeeds "struct \u00c4 \x7b int f(\u00fc".toList (by decide)
  exact ⟨summary, hok, hfailure⟩

end Cpp

namespace Java

/-- The parts that recognizers read without asking for them are there. -/
theorem isSome_part_of_always {p : Pattern} {label : Part} (hp : p.always label = true)
    (text : List Char) : ∀ found ∈ p.findAll text, (found.part? label).isSome := by
  intro found hf
  obtain ⟨before, rest, d, ms, rfl, hm, rfl⟩ := Pattern.foundIn_of_mem_findAll hf
  obtain ⟨mark, hmark⟩ := hm.latest_isSome hp
  rw [Match.part?_ofMarks, hmark]
  rfl

/-- The extraction of a text of less than two gigabytes succeeds when its masked view does not
have the word that declares records.  The summary reports no failure, and no complexity in it
leaves an unsigned word of 32 bits.  On the way no match is empty, so the offset before its end
exists; the parts of matches that are read without asking exist; the counts of open groups in
any part of the text fit signed words; and a declaration is cut only between two of its
characters. -/
theorem extract_succeeds_without_records (text : List Char)
    (hsize : Text.width text < 2147483648)
    (hrecord : ¬ "record".toList <:+: Mask.masked .java text) :
    (∃ summary, language.extract text = .ok summary ∧ Registry.java.parse text = summary ∧
      summary.isFailure = false ∧ ∀ entry ∈ summary.allFunctions, entry.complexity < UInt32.size) ∧
    (∀ rule ∈ language.rules,
      ∀ found ∈ rule.pattern.findAll (rule.text (language.subject text).source),
        found.start < found.stop) ∧
    ((∀ found ∈ packagePattern.findAll (Mask.masked .java text), (found.part? .path).isSome) ∧
      (∀ found ∈ importPattern.findAll text, (found.part? .path).isSome) ∧
      ∀ found ∈ typePattern.findAll (Mask.masked .java text), (found.part? .kind).isSome) ∧
    (∀ part, Text.width part ≤ Text.width text →
      splitTopLevelInWords? ',' .outside [] part = some (splitTopLevel ',' part) ∧
        splitDefaultInWords? 0 [] part = some (splitDefault part)) ∧
    ∀ (pattern : Pattern) (declaration : List Char) (name : Capture),
      (pattern.find? declaration).bind (·.part? .name) = some name →
        Text.IsBoundary declaration name.start ∧ Text.IsBoundary declaration name.stop := by
  obtain ⟨summary, hok, hmeets⟩ := Language.extract_yields (ensures_of_mem_rules text hrecord)
  refine ⟨⟨summary, hok, Extractor.parse_eq hok, hmeets.isFailure_eq_false,
      hmeets.complexity_lt_size hsize⟩, Language.start_lt_stop (by decide) _, ?_,
    splits_fit hsize, fun _ _ _ hname => Pattern.isBoundary_of_find?_part hname⟩
  exact ⟨isSome_part_of_always (by decide) _, isSome_part_of_always (by decide) _,
    isSome_part_of_always (by decide) _⟩

/-- An enum whose brackets are left open in front of a wide letter has a summary. -/
theorem extract_succeeds_left_open : ∃ summary,
    language.extract "enum E<\x7b A(\u00fc, class B<".toList = .ok summary ∧
      summary.isFailure = false := by
  have hbare : Text.isBare "enum E<\x7b A(\u00fc, class B<".toList = true := by decide
  obtain ⟨⟨summary, hok, _, hfailure, _⟩, _⟩ :=
    extract_succeeds_without_records "enum E<\x7b A(\u00fc, class B<".toList (by decide)
      (by rw [(Mask.views_of_isBare hbare).2]; decide +kernel)
  exact ⟨summary, hok, hfailure⟩

end Java

/-! ## Positions -/

/-- Every position in a summary is one of a text with so many lines: a declaration
ends no earlier than it starts, and lines and columns count from one. -/
structure Summary.Placed (lines : Nat) (summary : Summary) : Prop where
  functions : ∀ entry ∈ summary.allFunctions,
    1 ≤ entry.startLine ∧ entry.startLine ≤ entry.endLine ∧ entry.endLine ≤ lines ∧
      1 ≤ entry.complexity ∧ entry.startLine + entry.lineCount = entry.endLine + 1
  classes : ∀ entry ∈ summary.classes,
    1 ≤ entry.startLine ∧ entry.startLine ≤ entry.endLine ∧ entry.endLine ≤ lines
  properties : ∀ entry ∈ summary.classes, ∀ property ∈ entry.properties,
    1 ≤ property.line ∧ property.line ≤ lines
  imports : ∀ entry ∈ summary.imports, 1 ≤ entry.line ∧ entry.line ≤ lines
  exports : ∀ entry ∈ summary.exports, 1 ≤ entry.line ∧ entry.line ≤ lines
  diagnostics : ∀ diagnostic ∈ summary.syntaxErrors ++ summary.warnings,
    1 ≤ diagnostic.line ∧ diagnostic.line ≤ lines ∧ 1 ≤ diagnostic.column

theorem Summary.Meets.placed {text : List Char} {summary : Summary}
    (h : summary.Meets (.ofText text)) : summary.Placed (text.count '\n' + 1) := by
  have hfunction : ∀ {entry : FunctionEntry}, (Checks.ofText text).function entry →
      1 ≤ entry.startLine ∧ entry.startLine ≤ entry.endLine ∧
        entry.endLine ≤ text.count '\n' + 1 ∧ 1 ≤ entry.complexity ∧
        entry.startLine + entry.lineCount = entry.endLine + 1 := by
    rintro entry ⟨hstart, hle, hend, hcomplexity, _⟩
    refine ⟨hstart, hle, hend, hcomplexity, ?_⟩
    rw [FunctionEntry.lineCount]
    omega
  refine ⟨?_, fun entry he => (h.classes entry he).lines,
    fun entry he => (h.classes entry he).properties, h.imports, ?_, ?_⟩
  · intro entry he
    rcases List.mem_append.mp he with he | he
    · exact hfunction (h.functions entry he)
    · obtain ⟨class', hc, he⟩ := List.mem_flatMap.mp he
      exact hfunction ((h.classes class' hc).methods entry he)
  · intro entry he
    rcases h.exports entry he with ⟨function, hf, hline⟩ | ⟨class', hc, hline⟩
    · obtain ⟨hstart, hle, hend, _⟩ := h.functions function hf
      rw [hline]
      exact ⟨hstart, Nat.le_trans hle hend⟩
    · obtain ⟨hstart, hle, hend⟩ := (h.classes class' hc).lines
      rw [hline]
      exact ⟨hstart, Nat.le_trans hle hend⟩
  · intro diagnostic hd
    rcases List.mem_append.mp hd with hd | hd
    · obtain ⟨hfirst, hlast, hcolumn, _⟩ := h.errors diagnostic hd
      exact ⟨hfirst, hlast, hcolumn⟩
    · obtain ⟨hfirst, hlast, hcolumn, _⟩ := h.warnings diagnostic hd
      exact ⟨hfirst, hlast, hcolumn⟩

/-- The report of a failure stands at the start of the text. -/
theorem Summary.failure_placed (language message : String) (feeds : Nat) :
    (failure language message).Placed (feeds + 1) := by
  refine ⟨?_, ?_, ?_, ?_, ?_, ?_⟩
  all_goals simp [failure, empty, allFunctions]

theorem Extractor.parse_placed {extractor : Extractor} {text : List Char}
    (h : Allows (extractor.extract text) (Summary.Meets (.ofText text))) :
    (extractor.parse text).Placed (text.count '\n' + 1) := by
  rw [parse]
  split
  · next summary hok => exact (h summary hok).placed
  · exact Summary.failure_placed _ _ _

namespace Registry

/-- Each built-in extractor places what it reports in the text it was given. -/
theorem placed_of_mem_builtIn (text : List Char) :
    ∀ extractor ∈ builtIn.extractors, (extractor.parse text).Placed (text.count '\n' + 1) := by
  intro extractor he
  have hcases : extractor = java ∨ extractor = cpp := by
    simpa [builtIn, register, empty] using he
  rcases hcases with rfl | rfl
  · exact Extractor.parse_placed (Language.extract_allows (Java.gives_of_mem_rules text))
  · refine Extractor.parse_placed (Language.extract_allows fun rule hr => ?_)
    exact (Cpp.ensures_of_mem_rules text rule hr).gives

/-- A declaration that the end of the text cuts off is placed on its two lines. -/
theorem placed_cut_off : (cpp.parse "struct S \x7b\n  int f(".toList).Placed 2 :=
  placed_of_mem_builtIn "struct S \x7b\n  int f(".toList cpp (by simp [builtIn, register, empty])

end Registry
end Outline
