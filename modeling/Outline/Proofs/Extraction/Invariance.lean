import Outline.Proofs.Extraction.Cpp.Moved
import Outline.Proofs.Extraction.Java.Inserted
import Outline.Proofs.Extraction.Kind
import Outline.Proofs.Extraction.Literal

/-!
# What a summary depends on

The summary of a text depends on its two views, but for what is read from comments:
documentation, imports and columns.  And it does not depend on where in a file the
text stands, but for lines.
-/

namespace Outline

/-- Summaries that tell the same of the code.  They agree without documentation, imports
and the columns of open bodies; warnings, which are sorted by their columns, may come in
another order. -/
structure Summary.SameCode (a b : Summary) : Prop where
  entries : { a.under .uncommented with warnings := [] } =
    { b.under .uncommented with warnings := [] }
  warnings : (a.under .uncommented).warnings.Perm (b.under .uncommented).warnings

/-- What a summary tells of declarations: all of it but documentation, imports and diagnostics. -/
def Summary.declarations (summary : Summary) : Summary :=
  { summary.under .uncommented with syntaxErrors := [], warnings := [] }

/-! ## Diagnostics -/

namespace Scan

/-- The scan without diagnostics. -/
def silenced (scan : Scan) : Scan := { scan with errors := [], warnings := [] }

theorem silenced_recordAll {findings : List Finding}
    (h : Finding.Among [.error, .warning] findings) (scan : Scan) :
    (scan.recordAll findings).silenced = scan.silenced := by
  induction findings generalizing scan with
  | nil => rfl
  | cons finding findings ih =>
    obtain ⟨hkind, hrest⟩ := List.forall_mem_cons.mp h
    refine (ih hrest (scan.record finding)).trans ?_
    cases finding with
    | error | warning => rfl
    | _ => exact absurd hkind (by simp [Finding.kind])

theorem declarations_silenced (scan : Scan) (language : String) :
    (scan.silenced.finish language).declarations = (scan.finish language).declarations := rfl

end Scan

/-! ## Summaries of scans -/

namespace Scan.SameUnder

variable {a b : Scan}

theorem finish_declarations (h : SameUnder .uncommented a b) (language : String) :
    (a.finish language).declarations = (b.finish language).declarations := by
  have hfinish : (a.under .uncommented).finish language = (b.under .uncommented).finish language :=
    congrArg (Scan.finish · language) h
  rw [Scan.finish_under, Scan.finish_under] at hfinish
  exact congrArg (fun summary : Summary => { summary with syntaxErrors := [], warnings := [] })
    hfinish

theorem finish_sameCode (h : SameUnder .uncommented a b) (language : String) :
    (a.finish language).SameCode (b.finish language) := by
  have hfinish : (a.under .uncommented).finish language = (b.under .uncommented).finish language :=
    congrArg (Scan.finish · language) h
  have hwarnings : ∀ scan : Scan, ((scan.finish language).under .uncommented).warnings.Perm
      (scan.under .uncommented).warnings :=
    fun scan => (List.mergeSort_perm _ _).map _
  refine ⟨?_, ?_⟩
  · rw [Scan.finish_under, Scan.finish_under] at hfinish
    exact congrArg (fun summary : Summary => { summary with warnings := [] }) hfinish
  · have hsame : (a.under .uncommented).warnings = (b.under .uncommented).warnings :=
      congrArg Scan.warnings h
    exact (hwarnings a).trans (hsame ▸ (hwarnings b).symm)

theorem finish_lowered {feeds : Nat} (h : SameUnder (.lowered feeds) a b) (language : String) :
    b.finish language = (a.finish language).under (.lowered feeds) := by
  have hb : a.under (.lowered feeds) = b := h.trans (Scan.under_lowered_zero b)
  rw [← Scan.finish_under_lowered, hb]

end Scan.SameUnder

namespace Extractor

variable {language : Language} {text text' : List Char}

/-- Extractions that agree in place have summaries that tell the same, also when they fail. -/
theorem parse_sameCode
    (hm : Mask.masked language.maskRules text = Mask.masked language.maskRules text')
    (hs : Mask.stripped language.maskRules text = Mask.stripped language.maskRules text')
    (h : ∀ rule ∈ language.rules,
      rule.Agrees .uncommented (language.subject text) (language.subject text')) :
    ((ofLanguage language).parse text).SameCode ((ofLanguage language).parse text') := by
  have hagree : Agree _ _ ((ofLanguage language).extract text)
      ((ofLanguage language).extract text') :=
    Language.extract_agree (Language.subject_uncommented hm hs) h
  rw [parse, parse]
  generalize (ofLanguage language).extract text = x at hagree ⊢
  generalize (ofLanguage language).extract text' = y at hagree ⊢
  cases hagree with
  | ok hsame =>
    obtain ⟨a, b, hab, rfl, rfl⟩ := hsame
    exact hab.finish_sameCode language.id
  | error he =>
    rw [he.eq]
    exact ⟨rfl, .refl _⟩

/-- When something is put into a text and its scan is the same, then its declarations are, also
when both extractions fail. -/
theorem parse_declarations {i : Insertion} (haspect : i.aspect = .uncommented)
    (h : Agree i.width i.SameScan (language.scan (language.subject text))
      (language.scan (language.subject text'))) :
    ((ofLanguage language).parse text).declarations =
      ((ofLanguage language).parse text').declarations := by
  have hextract : ∀ text, (ofLanguage language).extract text = language.extract text := fun _ => rfl
  rw [parse, parse, hextract, hextract, Language.extract, Language.extract]
  generalize language.scan (language.subject text) = x at h ⊢
  generalize language.scan (language.subject text') = y at h ⊢
  cases h with
  | error => rfl
  | ok hsame =>
    next a b =>
    have hplaced : (a.placed i.place).SameUnder .uncommented b := haspect ▸ hsame
    have hhints : ∀ (scan : Scan) (subject : Subject),
        ((scan.recordAll (language.hints subject)).finish language.id).declarations =
          (scan.finish language.id).declarations := by
      intro scan subject
      rw [← Scan.declarations_silenced, Scan.silenced_recordAll (Language.hints_among _ _),
        Scan.declarations_silenced]
    have hfinish := hplaced.finish_declarations language.id
    rw [Scan.finish_placed] at hfinish
    exact (hhints a _).trans (hfinish.trans (hhints b _).symm)

theorem parse_lowered (feeds : Nat)
    (h : ∀ rule ∈ language.rules, rule.Agrees (.lowered feeds) (language.subject text)
      (language.subject (Text.lower feeds text)))
    (hok : ((ofLanguage language).parse text).isFailure = false) :
    (ofLanguage language).parse (Text.lower feeds text) =
      ((ofLanguage language).parse text).under (.lowered feeds) := by
  have hagree := Language.extract_agree (language.subject_lower feeds text) h
  have hextract : language.extract text = .ok ((ofLanguage language).parse text) :=
    extract_of_not_failure hok
  rw [hextract] at hagree
  generalize hy : language.extract (Text.lower feeds text) = y at hagree
  cases hagree with
  | ok hsame =>
    obtain ⟨a, b, hab, ha, rfl⟩ := hsame
    rw [ha, parse_eq hy, hab.finish_lowered]

end Extractor

namespace Registry

/-- Comments cannot forge or change what is said of code.  Two texts of one language with the
same views have the same summary, but for documentation, imports and the columns of open
bodies. -/
theorem sameCode_of_views_eq {language : Language} (hl : language ∈ [Java.language, Cpp.language])
    {text text' : List Char}
    (hm : Mask.masked language.maskRules text = Mask.masked language.maskRules text')
    (hs : Mask.stripped language.maskRules text = Mask.stripped language.maskRules text') :
    ((Extractor.ofLanguage language).parse text).SameCode
      ((Extractor.ofLanguage language).parse text') := by
  refine Extractor.parse_sameCode hm hs ?_
  simp only [List.mem_cons, List.not_mem_nil, or_false] at hl
  rcases hl with rfl | rfl
  · exact Java.uncommented_agrees hm hs
  · exact Cpp.uncommented_agrees hm hs

/-- A comment of other characters, which moves the declaration of an open body to another
column. -/
theorem sameCode_of_views_eq_open :
    Mask.masked .java "/* \u00e9 */ class A \x7b".toList =
        Mask.masked .java "/* \"; */ class A \x7b".toList ∧
      Mask.stripped .java "/* \u00e9 */ class A \x7b".toList =
        Mask.stripped .java "/* \"; */ class A \x7b".toList ∧
      (java.parse "/* \u00e9 */ class A \x7b".toList).SameCode
        (java.parse "/* \"; */ class A \x7b".toList) ∧
      (java.parse "/* \u00e9 */ class A \x7b".toList).warnings.map (·.column) = [9] ∧
      (java.parse "/* \"; */ class A \x7b".toList).warnings.map (·.column) = [10] := by
  have hmasked : Mask.masked .java "/* \u00e9 */ class A \x7b".toList =
      Mask.masked .java "/* \"; */ class A \x7b".toList := by decide +kernel
  have hstripped : Mask.stripped .java "/* \u00e9 */ class A \x7b".toList =
      Mask.stripped .java "/* \"; */ class A \x7b".toList := by decide +kernel
  have hjava : Java.language ∈ [Java.language, Cpp.language] := List.mem_cons_self
  exact ⟨hmasked, hstripped, sameCode_of_views_eq hjava hmasked hstripped, by decide +kernel,
    by decide +kernel⟩

/-- A text that is moved down keeps its summary, but for the lines. -/
theorem parse_lower (feeds : Nat) (text : List Char) :
    ∀ extractor ∈ builtIn.extractors, (extractor.parse text).isFailure = false →
      extractor.parse (Text.lower feeds text) =
        (extractor.parse text).under (.lowered feeds) := by
  intro extractor he hok
  rw [builtIn_extractors, List.mem_map] at he
  obtain ⟨reader, hr, rfl⟩ := he
  refine Extractor.parse_lowered feeds ?_ hok
  simp only [readers, List.mem_cons, List.not_mem_nil, or_false] at hr
  rcases hr with rfl | rfl
  · exact Java.lowered_agrees feeds text
  · exact Cpp.lowered_agrees feeds text

/-- A documented function two lines further down. -/
theorem parse_lower_documented :
    cpp.parse (Text.lower 2 "// doc\nint f() \x7b\n\x7d".toList) =
        (cpp.parse "// doc\nint f() \x7b\n\x7d".toList).under (.lowered 2) ∧
      (cpp.parse (Text.lower 2 "// doc\nint f() \x7b\n\x7d".toList)).functions.map
        (fun entry => (entry.startLine, entry.endLine, entry.docstring)) = [(4, 5, "doc")] :=
  ⟨parse_lower 2 _ cpp (by simp [builtIn, register, empty]) (cpp_parse_not_failure _),
    by decide +kernel⟩

end Registry
end Outline
