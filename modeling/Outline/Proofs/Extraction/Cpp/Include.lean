import Outline.Proofs.Extraction.Import
import Outline.Proofs.Extraction.Kind
import Outline.Proofs.Extraction.Registry
import Outline.Proofs.Pattern.Anchor
import Outline.Proofs.Source.LineStart

/-!
# Where includes stand

Includes are looked for in the text as it is, and every match counts.  So an include in a comment
or in a raw string is imported like any other.  Whether one is live is told by the line that it
stands on: in a view that keeps directives, the line begins with the mark of a directive when
the pass starts it outside of comments and literals, and it is blank up to behind that mark when
it does not.
-/

namespace Outline
namespace Cpp

open Mask (modeAt IsLead)

/-- The lexical rules of the language, but for directives, which stay. -/
def directivesKept : MaskRules := { MaskRules.cpp with directives := false }

/-- Whether a line of a view begins, blanks aside, with the mark of a directive. -/
def beginsDirective (view : List Char) (line : Nat) : Bool :=
  ((Text.splitAt '\n' view)[line - 1]?).any fun row => Text.startsWith (Text.trimStart row) ['#']

/-- What a match of an include tells. -/
def includeOf (text : List Char) (found : Match) : ImportEntry :=
  { source := String.ofList (Text.trim (found.text .path))
    names := [⟨String.ofList (Text.trim (found.text .path)), none, false⟩]
    isExternal := found.text .mark == ['<']
    isStatic := false
    line := (LineIndex.ofText text).lineOf found.start }

/-! ## Every match counts -/

section

variable {text : List Char}

/-- What a rule of the language says about imports: only one rule reads the text as it is. -/
def told (text : List Char) (rule : Rule) (found : Match) : Option ImportEntry :=
  if rule.view = .full then some (includeOf text found) else none

theorem filterMap_import?_of_among {kinds : List Finding.Kind} {findings : List Finding}
    (h : Finding.Among kinds findings) (hk : Finding.Kind.imported ∉ kinds) :
    findings.filterMap Finding.import? = [] := by
  rw [List.filterMap_eq_nil_iff]
  intro finding hf
  cases finding with
  | imported => exact absurd (h _ hf) hk
  | _ => rfl

theorem imports_of_finds {rule : Rule} {kinds : List Finding.Kind} (hview : rule.view = .masked)
    (h : rule.Finds kinds) (hk : Finding.Kind.imported ∉ kinds) :
    rule.Imports (told text rule) (language.subject text) := by
  intro scan found _
  refine (h _ scan found).mono fun findings hf => ?_
  rw [filterMap_import?_of_among hf hk, told, if_neg (by simp [hview])]
  rfl

theorem imports_of_mem_rules (text : List Char) :
    ∀ rule ∈ language.rules, rule.Imports (told text rule) (language.subject text) := by
  intro rule hr
  simp only [language, List.mem_cons, List.not_mem_nil, or_false] at hr
  rcases hr with rfl | rfl | rfl | rfl | rfl | rfl | rfl
  · exact fun _ _ _ => .ok rfl
  · exact imports_of_finds rfl (fun _ scan _ => @findNamespace_among _ scan _) (by decide)
  · exact imports_of_finds rfl (fun subject scan _ => @findLinkage_among subject scan _) (by decide)
  · exact imports_of_finds rfl (fun _ _ _ => findClass_among) (by decide)
  · exact imports_of_finds rfl (fun _ _ _ => findLabel_among) (by decide)
  · exact imports_of_finds rfl (fun _ _ _ => findFunction_among) (by decide)
  · exact imports_of_finds rfl (fun _ _ _ => findField_among) (by decide)

theorem sites_told (text : List Char) :
    ((language.sites (language.subject text)).filterMap fun site => told text site.1 site.2) =
      (includePattern.findAll text).map (includeOf text) := by
  have hmasked : ∀ (pattern apply) (matched : List Match),
      (matched.map (Prod.mk (Rule.mk .masked pattern apply))).filterMap
        (fun site => told text site.1 site.2) = [] := by
    intro pattern apply matched
    rw [List.filterMap_map, List.filterMap_eq_nil_iff]
    exact fun _ _ => rfl
  have hfull : ∀ (apply) (matched : List Match),
      (matched.map (Prod.mk (Rule.mk .full includePattern apply))).filterMap
        (fun site => told text site.1 site.2) = matched.map (includeOf text) := by
    intro apply matched
    rw [List.filterMap_map, ← List.filterMap_eq_map]
    rfl
  simp only [Language.sites, language, List.flatMap_cons, List.flatMap_nil, List.filterMap_append,
    hmasked, hfull, List.append_nil]
  rfl

end

/-! ## The line of an include -/

/-- A blank that may stand in front of the mark of a directive. -/
def IsGap (c : Char) : Prop := c = ' ' ∨ c = '\t'

/-- An include begins, behind blanks, with the mark of a directive. -/
theorem exists_gap {c d : Cursor} {ms : List Mark} (h : Pattern.Matches includePattern c d ms) :
    ∃ gap rest, c.rest = gap ++ '#' :: rest ∧ ∀ x ∈ gap, IsGap x := by
  obtain ⟨_, _, _, htoPath, -⟩ := Pattern.Matches.of_seq h
  obtain ⟨_, _, _, htoMark, -⟩ := htoPath.of_seq
  obtain ⟨_, _, _, htoGap, -⟩ := htoMark.of_seq
  obtain ⟨_, _, _, htoWord, -⟩ := htoGap.of_seq
  obtain ⟨_, _, _, htoGap, -⟩ := htoWord.of_seq
  obtain ⟨_, _, _, htoHash, -⟩ := htoGap.of_seq
  obtain ⟨behind, _, _, htoGap, hhash, -⟩ := htoHash.of_seq
  obtain ⟨_, _, _, hline, hgap, -⟩ := htoGap.of_seq
  cases hline
  obtain ⟨gap, htest, hgap⟩ := hgap.of_run
  refine ⟨gap, _, by rw [hgap.1, hhash.of_word.1]; rfl, fun x hx => ?_⟩
  simpa [IsGap] using htest x hx

/-- An include stands behind blanks that start a line. -/
theorem exists_line {text : List Char} {found : Match} (h : includePattern.FoundIn text found) :
    ∃ before gap rest, text = before ++ (gap ++ '#' :: rest) ∧ found.start = Text.width before ∧
      Text.startsLine before = true ∧ ∀ x ∈ gap, IsGap x := by
  obtain ⟨before, rest, d, ms, rfl, hm, rfl⟩ := h
  obtain ⟨gap, rest, rfl, hgap⟩ := exists_gap hm
  exact ⟨before, gap, rest, rfl, rfl, hm.previous_of_startsLines (by decide), hgap⟩

theorem trimStart_replicate (n : Nat) (tail : List Char) :
    Text.trimStart (List.replicate n ' ' ++ tail) = Text.trimStart tail := by
  induction n with
  | zero => rfl
  | succ n ih => exact ih

theorem trimStart_gap {gap : List Char} (hgap : ∀ x ∈ gap, IsGap x) (tail : List Char) :
    Text.trimStart (gap ++ tail) = Text.trimStart tail := by
  induction gap with
  | nil => rfl
  | cons c gap ih =>
    obtain ⟨hc, hgap'⟩ := List.forall_mem_cons.mp hgap
    rcases hc with rfl | rfl <;> exact ih hgap'

/-- How a line of a text begins in the view that keeps directives, when it begins with blanks and
the mark of a directive. -/
theorem exists_row {before gap : List Char} (rest : List Char)
    (hline : Text.startsLine before = true) (hgap : ∀ x ∈ gap, IsGap x) :
    ∃ tail, (Text.splitAt '\n' (Mask.masked directivesKept
        (before ++ (gap ++ '#' :: rest))))[before.count '\n']? =
      some ((if (modeAt directivesKept before (gap ++ '#' :: rest)).hides
        then List.replicate (gap.length + 1) ' ' else gap ++ ['#']) ++ tail) := by
  have hword : ∀ x ∈ gap ++ ['#'], IsLead x := by
    intro x hx
    rcases List.mem_append.mp hx with hx | hx
    · exact (hgap x hx).imp_right .inl
    · exact .inr (.inr (List.mem_singleton.mp hx))
  have hrest : gap ++ '#' :: rest = gap ++ ['#'] ++ rest := by simp
  obtain ⟨front, tail, hfront, hmasked⟩ :=
    @Mask.exists_masked_lead directivesKept rfl rfl before (gap ++ ['#']) rest hline hword
  rw [← hrest, List.length_append, List.length_singleton] at hmasked
  generalize hlead : (if (modeAt directivesKept before (gap ++ '#' :: rest)).hides
    then List.replicate (gap.length + 1) ' ' else gap ++ ['#']) = lead at hmasked ⊢
  have hfeed : '\n' ∉ lead := by
    intro hmem
    rw [← hlead] at hmem
    split at hmem
    · exact absurd (List.eq_of_mem_replicate hmem) (by decide)
    · exact absurd (hword _ hmem) (by simp [IsLead])
  obtain ⟨pieces, hpieces⟩ := Text.splitAt_eq_cons '\n' tail
  refine ⟨tail.takeWhile (· != '\n'), ?_⟩
  rw [hmasked, ← List.head?_drop, ← hfront.count_feed_eq,
    Text.drop_splitAt (startsLine_of_blanks hfront hline), Text.splitAt_append_of_notMem hfeed, hpieces]
  rfl

theorem beginsDirective_iff {view tail : List Char} {line : Nat} {gap : List Char} {hides : Bool}
    (hgap : ∀ x ∈ gap, IsGap x)
    (h : (Text.splitAt '\n' view)[line - 1]? = some ((if hides
      then List.replicate (gap.length + 1) ' ' else gap ++ ['#']) ++ tail)) :
    beginsDirective view line = true ↔
      hides = false ∨ Text.startsWith (Text.trimStart tail) ['#'] = true := by
  rw [beginsDirective, h, Option.any_some]
  cases hides with
  | true => simp [trimStart_replicate]
  | false =>
    have hhash : Text.trimStart ('#' :: tail) = '#' :: tail := rfl
    rw [if_neg Bool.false_ne_true, List.append_assoc, trimStart_gap hgap, List.singleton_append, hhash]
    simp [Text.startsWith, Text.dropLead?]

/-- The imports of a text are the includes that stand in it, comments and literals included.  Each
stands on a line of its own, behind blanks, and its line number is that of this line.  The line
begins with the mark of a directive, in the view that keeps directives, exactly when the pass
starts it outside of comments and literals, unless another such mark comes first in what the view
shows of the rest of the line. -/
theorem includes_live_iff (text : List Char) :
    (Registry.cpp.parse text).imports = (includePattern.findAll text).map (includeOf text) ∧
      ∀ found ∈ includePattern.findAll text, ∃ before gap rest tail,
        text = before ++ (gap ++ '#' :: rest) ∧ found.start = Text.width before ∧
        Text.startsLine before = true ∧ (∀ x ∈ gap, IsGap x) ∧
        (includeOf text found).line = before.count '\n' + 1 ∧
        (Text.splitAt '\n' (Mask.masked directivesKept text))[(includeOf text found).line - 1]? =
          some ((if (modeAt directivesKept before (gap ++ '#' :: rest)).hides
            then List.replicate (gap.length + 1) ' ' else gap ++ ['#']) ++ tail) ∧
        (beginsDirective (Mask.masked directivesKept text) (includeOf text found).line = true ↔
          (modeAt directivesKept before (gap ++ '#' :: rest)).hides = false ∨
            Text.startsWith (Text.trimStart tail) ['#'] = true) := by
  constructor
  · obtain ⟨summary, hok, -⟩ := Language.extract_yields (ensures_of_mem_rules text)
    rw [Extractor.parse_eq hok, ← sites_told]
    exact Language.extract_imports (imports_of_mem_rules text) _ hok
  · intro found hf
    obtain ⟨before, gap, rest, rfl, hstart, hline, hgap⟩ :=
      exists_line (Pattern.foundIn_of_mem_findAll hf)
    obtain ⟨tail, hrow⟩ := exists_row rest hline hgap
    have hnumber : (includeOf (before ++ (gap ++ '#' :: rest)) found).line =
        before.count '\n' + 1 := by
      rw [includeOf, hstart, LineIndex.lineOf_width]
    have hrow' := hrow
    rw [← Nat.add_sub_cancel (before.count '\n') 1, ← hnumber] at hrow'
    exact ⟨before, gap, rest, tail, rfl, hstart, hline, hgap, hnumber, hrow',
      beginsDirective_iff hgap hrow'⟩

/-- The line of an include in a comment is blank in the view that keeps directives. -/
example : beginsDirective (Mask.masked directivesKept "/*\n#include <a>\n*/".toList) 2 = false := by
  decide

end Cpp
end Outline
