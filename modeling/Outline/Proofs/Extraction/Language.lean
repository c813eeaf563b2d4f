import Outline.Proofs.Declaration.LineCheck
import Outline.Proofs.Extraction.Outcome
import Outline.Proofs.Extraction.Subject

/-!
# Running the rules of a language

A run of all rules is a fold of folds, so what every rule keeps on every match,
from every scan, holds of the scan in the end and of the summary made from it.
-/

namespace Outline

namespace Rule

/-- What the rule tells about any of its matches in a source, after anything that
may have been found before, passes the checks. -/
def Gives (checks : Checks) (rule : Rule) (subject : Subject) : Prop :=
  ∀ scan, ∀ found ∈ rule.pattern.findAll (rule.text subject.source),
    Allows (rule.apply subject scan found) (Finding.AllMeet checks)

/-- The same, and the rule never gives the extraction up. -/
def Ensures (checks : Checks) (rule : Rule) (subject : Subject) : Prop :=
  ∀ scan, ∀ found ∈ rule.pattern.findAll (rule.text subject.source),
    Yields (rule.apply subject scan found) (Finding.AllMeet checks)

variable {checks : Checks} {rule : Rule} {subject : Subject} {scan : Scan}

theorem Ensures.gives (h : rule.Ensures checks subject) : rule.Gives checks subject :=
  fun scan found hf => (h scan found hf).allows

theorem Gives.run_allows (h : rule.Gives checks subject) (hs : scan.Meets checks) :
    Allows (rule.run subject scan) (Scan.Meets checks) :=
  Allows.foldlM (fun scan hs found hf => (h scan found hf).map fun _ => hs.recordAll) hs

theorem Ensures.run_yields (h : rule.Ensures checks subject) (hs : scan.Meets checks) :
    Yields (rule.run subject scan) (Scan.Meets checks) :=
  Yields.foldlM (fun scan hs found hf => (h scan found hf).map fun _ => hs.recordAll) hs

/-- What every step of a rule keeps holds after its run. -/
theorem run_yields {P : Scan → Prop} (h : ∀ scan, P scan →
    ∀ found ∈ rule.pattern.findAll (rule.text subject.source),
      Yields (rule.apply subject scan found) fun findings => P (scan.recordAll findings))
    {scan : Scan} (hs : P scan) : Yields (rule.run subject scan) P :=
  Yields.foldlM (fun scan hs found hf => (h scan hs found hf).map fun _ hp => hp) hs

/-- Where its pattern is not found a rule does nothing. -/
theorem run_of_findAll_nil (h : rule.pattern.findAll (rule.text subject.source) = [])
    (scan : Scan) : rule.run subject scan = .ok scan := by
  rw [run, h]
  rfl

/-- What its first match leads to stays where its others tell nothing. -/
theorem run_of_findAll_cons {P : Scan → Prop} {first : Match} {others : List Match}
    (hall : rule.pattern.findAll (rule.text subject.source) = first :: others)
    (hfirst : Yields (rule.apply subject scan first) fun findings => P (scan.recordAll findings))
    (hothers : ∀ other ∈ others, ∀ scan, Yields (rule.apply subject scan other) (· = [])) :
    Yields (rule.run subject scan) P := by
  rw [run, hall, List.foldlM_cons]
  refine (hfirst.map fun _ hp => hp).bind fun scan hs => ?_
  refine Yields.foldlM (fun scan hs other ho => ?_) hs
  refine (hothers other ho scan).map ?_
  rintro _ rfl
  exact hs

end Rule

namespace Language

variable {checks : Checks} {language : Language} {subject : Subject} {text : List Char}

theorem scan_allows (h : ∀ rule ∈ language.rules, rule.Gives checks subject) :
    Allows (language.scan subject) (Scan.Meets checks) :=
  Allows.foldlM (fun _ hs rule hr => (h rule hr).run_allows hs) Scan.empty_meets

theorem scan_yields (h : ∀ rule ∈ language.rules, rule.Ensures checks subject) :
    Yields (language.scan subject) (Scan.Meets checks) :=
  Yields.foldlM (fun _ hs rule hr => (h rule hr).run_yields hs) Scan.empty_meets

/-- The hints are found in the masked view, which has the line feeds of the text. -/
theorem hints_meet (language : Language) (h : subject.Of text) :
    Finding.AllMeet (.ofText text) (language.hints subject) := by
  have hfeeds : subject.masked.count '\n' = text.count '\n' := by
    rw [h.masked.count_feed_eq, h.stripped.count_feed_eq]
  have hdiagnostic : ∀ {diagnostic : Diagnostic},
      diagnostic.HintOn 1 (subject.masked.count '\n' + 2) →
        (Checks.ofText text).diagnostic diagnostic := by
    intro diagnostic hint
    have hlt := hint.lt_stop
    refine ⟨hint.first_le, by omega, hint.one_le_column, ?_⟩
    rcases hint.code with hc | hc
    · rw [hc]; decide
    · rw [hc]; decide
  intro finding hf
  rcases List.mem_append.mp hf with hf | hf
  · obtain ⟨diagnostic, hd, rfl⟩ := List.mem_map.mp hf
    exact hdiagnostic (LineCheck.hintOn_of_mem_check (Or.inl hd))
  · obtain ⟨diagnostic, hd, rfl⟩ := List.mem_map.mp hf
    exact hdiagnostic (LineCheck.hintOn_of_mem_check (Or.inr hd))

theorem extract_allows
    (h : ∀ rule ∈ language.rules, rule.Gives (.ofText text) (language.subject text)) :
    Allows (language.extract text) (Summary.Meets (.ofText text)) := by
  refine (scan_allows h).bind fun scan hs => .ok ?_
  exact (hs.recordAll (hints_meet language (language.subject_of text))).finish language.id

theorem extract_yields
    (h : ∀ rule ∈ language.rules, rule.Ensures (.ofText text) (language.subject text)) :
    Yields (language.extract text) (Summary.Meets (.ofText text)) := by
  refine (scan_yields h).bind fun scan hs => .ok ?_
  exact (hs.recordAll (hints_meet language (language.subject_of text))).finish language.id

end Language
end Outline
