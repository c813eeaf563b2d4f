import Outline.Proofs.Extraction.Outcome
import Outline.Proofs.Extraction.Trace
import Outline.Proofs.Source.Blanking
import Outline.Proofs.Text.Line

/-!
# The imports of a run

Only findings of imports add to the imports of a scan, in the order in which the rules look at
their matches.  So when it is known what each rule says about imports, so is the list of all
imports.
-/

namespace Outline

/-! ## What a run imports -/

/-- The import that a finding is about. -/
def Finding.import? : Finding → Option ImportEntry
  | .imported entry => some entry
  | _ => none

theorem filterMap_cons_toList {α β : Type} (f : α → Option β) (a : α) (entries : List α) :
    (a :: entries).filterMap f = (f a).toList ++ entries.filterMap f := by
  cases h : f a with
  | none => rw [List.filterMap_cons_none h]; rfl
  | some b => rw [List.filterMap_cons_some h]; rfl

namespace Scan

theorem imports_record (scan : Scan) (finding : Finding) :
    (scan.record finding).imports = scan.imports ++ finding.import?.toList := by
  cases finding with
  | imported entry => rfl
  | _ => exact (List.append_nil _).symm

theorem imports_recordAll (scan : Scan) (findings : List Finding) :
    (scan.recordAll findings).imports = scan.imports ++ findings.filterMap Finding.import? := by
  induction findings generalizing scan with
  | nil => exact (List.append_nil _).symm
  | cons finding findings ih =>
    rw [recordAll, List.foldl_cons, ← recordAll, ih, imports_record, List.append_assoc,
      filterMap_cons_toList]

end Scan

/-- What a rule says about imports for each of its matches in a source, whatever was found
before. -/
def Rule.Imports (told : Match → Option ImportEntry) (rule : Rule) (subject : Subject) : Prop :=
  ∀ scan, ∀ found ∈ rule.pattern.findAll (rule.text subject.source),
    Allows (rule.apply subject scan found) fun findings =>
      findings.filterMap Finding.import? = (told found).toList

namespace Language

variable {language : Language} {subject : Subject} {told : Rule → Match → Option ImportEntry}

theorem hints_import?_eq_nil (language : Language) (subject : Subject) :
    (language.hints subject).filterMap Finding.import? = [] := by
  rw [List.filterMap_eq_nil_iff]
  intro finding hf
  rw [hints, List.mem_append, List.mem_map, List.mem_map] at hf
  obtain ⟨_, _, rfl⟩ | ⟨_, _, rfl⟩ := hf <;> rfl

/-- The imports of a scan are those that its rules tell, match by match. -/
theorem scan_imports (h : ∀ rule ∈ language.rules, rule.Imports (told rule) subject) :
    Allows (language.scan subject) fun scan =>
      scan.imports = (language.sites subject).filterMap fun site => told site.1 site.2 := by
  have hsites : ∀ site ∈ language.sites subject, ∀ scan,
      Allows (site.1.apply subject scan site.2) fun findings =>
        findings.filterMap Finding.import? = (told site.1 site.2).toList := by
    intro site hs scan
    obtain ⟨rule, hr, hmem⟩ := List.mem_flatMap.mp hs
    obtain ⟨found, hf, rfl⟩ := List.mem_map.mp hmem
    exact h rule hr scan found hf
  rw [scan_eq_foldlM_sites]
  generalize language.sites subject = sites at hsites ⊢
  -- The sites still to be looked at add to what the scan has imported so far.
  suffices hall : ∀ scan : Scan, Allows
      (sites.foldlM (fun scan site => site.1.step subject scan site.2) scan) fun scan' =>
        scan'.imports = scan.imports ++ sites.filterMap fun site => told site.1 site.2 from hall .empty
  induction sites with
  | nil => exact fun scan => .ok (List.append_nil _).symm
  | cons site sites ih =>
    intro scan
    rw [List.foldlM_cons]
    refine ((hsites site List.mem_cons_self scan).map (Q := fun next : Scan =>
      next.imports = scan.imports ++ (told site.1 site.2).toList) fun findings hf => ?_).bind ?_
    · rw [Scan.imports_recordAll, hf]
    · intro next hnext
      refine (ih (fun site hs => hsites site (List.mem_cons_of_mem _ hs)) next).mono ?_
      intro scan' hscan'
      rw [hscan', hnext, List.append_assoc, filterMap_cons_toList]

theorem extract_imports {text : List Char}
    (h : ∀ rule ∈ language.rules, rule.Imports (told rule) (language.subject text)) :
    Allows (language.extract text) fun summary => summary.imports =
      (language.sites (language.subject text)).filterMap fun site => told site.1 site.2 := by
  refine (scan_imports h).bind fun scan hscan => .ok ?_
  show (scan.recordAll _).imports = _
  rw [Scan.imports_recordAll, hints_import?_eq_nil, List.append_nil, hscan]

end Language

/-- Where a line starts in a text, one starts in what is left of it when some of its
characters are blank. -/
theorem startsLine_of_blanks {s t : List Char} (h : Blanks s t)
    (hs : Text.startsLine s = true) : Text.startsLine t = true := by
  rcases List.eq_nil_or_concat s with rfl | ⟨lead, last, rfl⟩
  · cases h
    rfl
  · rw [List.concat_eq_append] at h hs
    obtain rfl : last = '\n' := by simpa [Text.startsLine] using hs
    obtain ⟨lead', last', rfl, -, hlast⟩ := h.exists_append
    cases hlast with
    | keep _ hnil =>
      cases hnil
      simp [Text.startsLine]
    | blank hc _ => exact absurd rfl hc

end Outline
