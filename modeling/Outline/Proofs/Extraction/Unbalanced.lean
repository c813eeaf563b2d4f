import Outline.Proofs.Declaration.Parens
import Outline.Proofs.Extraction.Kind
import Outline.Proofs.Extraction.Registry
import Outline.Proofs.Source.Column

/-!
# Where unbalanced parentheses are reported

The line checks read the masked view.  What they report stands on its line in the text, but
the column they give counts the spaces that hidden characters left behind.
-/

namespace Outline

open LineCheck (unbalancedCode unexpectedClose unclosedOpen ReportsParen)

/-- A report of a parenthesis of the text.  The column is that of the parenthesis and what
the hidden characters in front of it have in excess. -/
def ReportsParenOf (rules : MaskRules) (text : List Char) (diagnostic : Diagnostic) : Prop :=
  ∃ column, 1 ≤ column ∧
    (diagnostic = unexpectedClose diagnostic.line diagnostic.column ∧
        Text.charOn? text diagnostic.line column = some ')' ∨
      diagnostic = unclosedOpen diagnostic.line diagnostic.column ∧
        Text.charOn? text diagnostic.line column = some '(') ∧
    diagnostic.column = column + Mask.excessBefore rules text diagnostic.line column

theorem reportsParenOf_of_masked {rules : MaskRules} {text : List Char} {diagnostic : Diagnostic}
    (h : ReportsParen 1 (Text.lines (Mask.masked rules text)) diagnostic) :
    ReportsParenOf rules text diagnostic := by
  obtain ⟨line, column, h⟩ := h
  have hplace : ∀ {c : Char}, c ≠ ' ' → c ≠ '\n' →
      ((Text.lines (Mask.masked rules text))[line]?).bind (·[column]?) = some c →
      ∃ column', Text.charOn? text (1 + line) (column' + 1) = some c ∧
        column + 1 = column' + 1 + Mask.excessBefore rules text (1 + line) (column' + 1) := by
    intro c hs hf hchar
    obtain ⟨column', hreal, hcolumn⟩ := Mask.exists_charOn? hs hf hchar
    rw [Nat.add_comm 1 line]
    exact ⟨column', hreal, by omega⟩
  rcases h with ⟨rfl, hchar⟩ | ⟨rfl, hchar⟩
  · obtain ⟨column', hreal, hcolumn⟩ := hplace (by decide) (by decide) hchar
    exact ⟨column' + 1, Nat.le_add_left _ _, .inl ⟨rfl, hreal⟩, hcolumn⟩
  · obtain ⟨column', hreal, hcolumn⟩ := hplace (by decide) (by decide) hchar
    exact ⟨column' + 1, Nat.le_add_left _ _, .inr ⟨rfl, hreal⟩, hcolumn⟩

namespace Registry

/-- Where unbalanced parentheses are reported.  A report names the line of a parenthesis of the
text.  Its column is that of the parenthesis as long as no character of more than one byte
is hidden on the line in front of it; each such character moves it right by its bytes
beyond the first. -/
theorem unbalanced_reportsParenOf {language : Language}
    (hl : language = Java.language ∨ language = Cpp.language) (text : List Char)
    {diagnostic : Diagnostic}
    (hd : diagnostic ∈ ((Extractor.ofLanguage language).parse text).syntaxErrors)
    (hc : diagnostic.code = some unbalancedCode) :
    ReportsParenOf language.maskRules text diagnostic := by
  have hfinds : ∀ rule ∈ language.rules, ∃ kinds, rule.Finds kinds ∧ Finding.Kind.error ∉ kinds := by
    rcases hl with rfl | rfl
    · exact Java.finds_of_mem_rules
    · exact Cpp.finds_of_mem_rules
  rw [Extractor.parse] at hd
  split at hd
  · next summary hsummary =>
    rw [Language.extract_errors hfinds text summary hsummary, List.mem_mergeSort] at hd
    exact reportsParenOf_of_masked (LineCheck.reportsParen_of_mem_check hd)
  · rw [Summary.failure, List.mem_singleton] at hd
    rw [hd] at hc
    exact absurd (show some Summary.parseErrorCode = some unbalancedCode from hc) (by decide)

/-- The parenthesis behind a comment with a letter of two bytes stands in column 17. -/
theorem unbalanced_reportsParenOf_comment :
    unexpectedClose 1 18 ∈ (java.parse "/* \u00e9 */ x = f(a));".toList).syntaxErrors ∧
      Text.charOn? "/* \u00e9 */ x = f(a));".toList 1 17 = some ')' ∧
      Text.charOn? "/* \u00e9 */ x = f(a));".toList 1 18 = some ';' ∧
      ReportsParenOf .java "/* \u00e9 */ x = f(a));".toList (unexpectedClose 1 18) :=
  have hmem : unexpectedClose 1 18 ∈
      (java.parse "/* \u00e9 */ x = f(a));".toList).syntaxErrors := by decide +kernel
  ⟨hmem, by decide +kernel, by decide +kernel, unbalanced_reportsParenOf (.inl rfl) _ hmem rfl⟩

end Registry
end Outline
