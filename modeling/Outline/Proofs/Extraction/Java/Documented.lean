import Outline.Proofs.Declaration.DocLines
import Outline.Proofs.Extraction.Kind
import Outline.Proofs.Extraction.Registry

/-!
# The documentation of a summary

Every function, method and class of the summary of a Java text has the documentation that is
found above its first line.  It shows no code exactly when one run of comments covers all the
lines that it is made of.
-/

namespace Outline

/-! ## What a scan documents -/

/-- A first line with the documentation above it. -/
def FunctionEntry.documentation (entry : FunctionEntry) : Nat × String :=
  (entry.startLine, entry.docstring)

/-- The documentation of a class and of its methods. -/
def ClassEntry.documentation (entry : ClassEntry) : List (Nat × String) :=
  (entry.startLine, entry.docstring) :: entry.methods.map FunctionEntry.documentation

def Finding.documentation : Finding → List (Nat × String)
  | .classBody draft => draft.entry.documentation
  | .method _ entry | .function entry => [entry.documentation]
  | _ => []

def Scan.documentation (scan : Scan) : List (Nat × String) :=
  scan.functions.map FunctionEntry.documentation ++
    scan.classes.flatMap fun draft => draft.entry.documentation

/-- The documentation of all functions, classes and methods of a summary. -/
def Summary.documentation (summary : Summary) : List (Nat × String) :=
  summary.functions.map FunctionEntry.documentation ++
    summary.classes.flatMap ClassEntry.documentation

section Recording

variable {D : Nat × String → Prop} {scan : Scan}

/-- What every documentation of a finding and of a scan has, the scan keeps. -/
def Documents (D : Nat × String → Prop) (findings : List Finding) : Prop :=
  ∀ finding ∈ findings, ∀ told ∈ finding.documentation, D told

theorem documents_of_among {kinds : List Finding.Kind} {findings : List Finding}
    (h : Finding.Among kinds findings) (hc : Finding.Kind.classBody ∉ kinds)
    (hm : Finding.Kind.method ∉ kinds) (hf : Finding.Kind.function ∉ kinds) :
    Documents D findings := by
  intro finding hfinding
  have hkind := h finding hfinding
  cases finding with
  | classBody => exact absurd hkind hc
  | method => exact absurd hkind hm
  | function => exact absurd hkind hf
  | package | imported | block | label | abstractClass | property | error | warning =>
    exact List.forall_mem_nil D

theorem Documents.append {a b : List Finding} (ha : Documents D a) (hb : Documents D b) :
    Documents D (a ++ b) := List.forall_mem_append.mpr ⟨ha, hb⟩

theorem documents_singleton {finding : Finding} (h : ∀ told ∈ finding.documentation, D told) :
    Documents D [finding] := List.forall_mem_singleton.mpr h

theorem Scan.forall_documentation_iff :
    (∀ told ∈ scan.documentation, D told) ↔
      (∀ entry ∈ scan.functions, D entry.documentation) ∧
        ∀ draft ∈ scan.classes, ∀ told ∈ draft.entry.documentation, D told := by
  rw [documentation, List.forall_mem_append, List.forall_mem_map, List.forall_mem_flatMap]

theorem forall_documentation_record (h : ∀ told ∈ scan.documentation, D told) {finding : Finding}
    (hf : ∀ told ∈ finding.documentation, D told) :
    ∀ told ∈ (scan.record finding).documentation, D told := by
  rw [Scan.forall_documentation_iff] at h ⊢
  obtain ⟨hfunctions, hclasses⟩ := h
  cases finding with
  | package | imported | block | error | warning => exact ⟨hfunctions, hclasses⟩
  | classBody draft => exact ⟨hfunctions, Scan.forall_mem_concat hclasses hf⟩
  | label index | abstractClass index | property index =>
    refine ⟨hfunctions, Scan.forall_mem_modify hclasses (fun draft hdraft => ?_) index⟩
    exact hdraft
  | method index entry =>
    refine ⟨hfunctions, Scan.forall_mem_modify hclasses (fun draft hdraft => ?_) index⟩
    rw [ClassEntry.documentation, List.map_append]
    rw [ClassEntry.documentation] at hdraft
    exact Scan.forall_mem_concat hdraft (hf _ List.mem_cons_self)
  | function entry =>
    exact ⟨Scan.forall_mem_concat hfunctions (hf _ List.mem_cons_self), hclasses⟩

theorem forall_documentation_recordAll {findings : List Finding}
    (h : ∀ told ∈ scan.documentation, D told) (hf : Documents D findings) :
    ∀ told ∈ (scan.recordAll findings).documentation, D told := by
  induction findings generalizing scan with
  | nil => exact h
  | cons finding findings ih =>
    exact ih (forall_documentation_record h (hf finding List.mem_cons_self))
      fun f hmem => hf f (List.mem_cons_of_mem _ hmem)

/-- Putting members in order documents nothing new. -/
theorem forall_documentation_finish (h : ∀ told ∈ scan.documentation, D told)
    (language : String) : ∀ told ∈ (scan.finish language).documentation, D told := by
  rw [Scan.forall_documentation_iff] at h
  rw [Summary.documentation, List.forall_mem_append, List.forall_mem_map, List.forall_mem_flatMap]
  refine ⟨fun entry he => h.1 entry (List.mem_mergeSort.mp he), fun entry he told htold => ?_⟩
  obtain ⟨draft, hdraft, rfl⟩ := List.mem_map.mp he
  refine h.2 draft hdraft told ?_
  rcases List.mem_cons.mp htold with rfl | htold
  · exact List.mem_cons_self
  · obtain ⟨method, hmethod, rfl⟩ := List.mem_map.mp htold
    exact List.mem_cons_of_mem _ (List.mem_map_of_mem (List.mem_mergeSort.mp hmethod))

/-- What holds of all documentation that the rules of a language tell holds of that of a summary. -/
theorem Language.extract_documentation {language : Language} {text : List Char}
    (h : ∀ rule ∈ language.rules, ∀ scan found,
      Allows (rule.apply (language.subject text) scan found) (Documents D)) :
    Allows (language.extract text) fun summary => ∀ told ∈ summary.documentation, D told := by
  have hscan : Allows (language.scan (language.subject text))
      fun scan => ∀ told ∈ scan.documentation, D told := by
    refine Allows.foldlM (fun scan hs rule hr => ?_) (List.forall_mem_nil D)
    exact Allows.foldlM (fun scan hs found _ => (h rule hr scan found).map
      fun _ => forall_documentation_recordAll hs) hs
  refine hscan.bind fun scan hs => .ok ?_
  have hhints : Documents D (language.hints (language.subject text)) :=
    documents_of_among (hints_among language _) (by decide) (by decide) (by decide)
  exact forall_documentation_finish (forall_documentation_recordAll hs hhints) language.id

end Recording

/-! ## The rules of Java -/

namespace Java

variable {text : List Char} {scan : Scan} {found : Match}

/-- The documentation above a line of a text. -/
def IsDocumentation (text : List Char) (told : Nat × String) : Prop :=
  told.2 = String.ofList (Docstring.find (Text.lines text) told.1 docSkipped)

theorem documents_classBody {draft : ClassDraft} (hm : draft.entry.methods = [])
    (h : IsDocumentation text (draft.entry.startLine, draft.entry.docstring)) :
    Documents (IsDocumentation text) [.classBody draft] := by
  refine documents_singleton ?_
  rw [Finding.documentation, ClassEntry.documentation, hm]
  exact List.forall_mem_singleton.mpr h

theorem documents_checkTerminated (subject : Subject) (body : Body) (name : List Char)
    (offset : Nat) :
    Documents (IsDocumentation text) (subject.checkTerminated body name offset) := by
  have hamong : Finding.Among [.warning] (subject.checkTerminated body name offset) :=
    Finding.among_checkTerminated List.mem_cons_self subject body name offset
  exact documents_of_among hamong (by decide) (by decide) (by decide)

theorem documents_properties {index : Nat} {findings : List Finding}
    (h : ∀ finding ∈ findings, ∃ entry, finding = .property index entry) :
    Documents (IsDocumentation text) findings :=
  have hamong : Finding.Among [.property] findings := among_of_properties h List.mem_cons_self
  documents_of_among hamong (by decide) (by decide) (by decide)

theorem typeFindings_documents {declaration name : Capture} {opening : Nat} :
    Allows (typeFindings (language.subject text) scan found declaration name opening)
      (Documents (IsDocumentation text)) := by
  rw [typeFindings]
  refine (allows_true _).bind fun header _ => (allows_true _).bind fun supertypes _ => ?_
  refine (allows_true _).bind fun body _ => ?_
  refine (recordComponents_properties _ _).bind fun components hcomponents => ?_
  have hall : ∀ draft : ClassDraft, draft.entry.methods = [] →
      IsDocumentation text (draft.entry.startLine, draft.entry.docstring) →
      ∀ constants, Documents (IsDocumentation text) constants →
        Documents (IsDocumentation text) ([.classBody draft]
          ++ (language.subject text).checkTerminated body name.text declaration.start
          ++ components ++ constants) :=
    fun draft hm h constants hconstants =>
      (((documents_classBody hm h).append (documents_checkTerminated _ _ _ _)).append
        (documents_properties hcomponents)).append hconstants
  dsimp only
  split
  · refine (enumConstants_properties _ _ _).bind fun constants hconstants => .ok ?_
    refine hall _ rfl ?_ _ (documents_properties hconstants)
    exact rfl
  · refine .ok (hall _ rfl ?_ _ (List.forall_mem_nil _))
    exact rfl

theorem findType_documents : Allows (findType (language.subject text) scan found)
    (Documents (IsDocumentation text)) := by
  rw [findType]
  split
  · refine (allows_true _).bind fun starts _ => ?_
    split
    · split
      · exact typeFindings_documents
      · exact .ok (List.forall_mem_nil _)
    · exact .ok (List.forall_mem_nil _)
  · exact .ok (List.forall_mem_nil _)

theorem documents_entered {entry : FunctionEntry} {owner : Option (Nat × ClassDraft)}
    (h : IsDocumentation text (entry.startLine, entry.docstring)) :
    Documents (IsDocumentation text) [match owner with
      | some (index, _) => .method index entry
      | none => .function entry] := by
  refine documents_singleton ?_
  cases owner with
  | none => exact List.forall_mem_singleton.mpr h
  | some owner => exact List.forall_mem_singleton.mpr h

theorem methodFindings_documents {declaration name : Capture} {start stop : Nat}
    {trailer : Trailer} :
    Allows (methodFindings (language.subject text) scan found declaration name start stop trailer)
      (Documents (IsDocumentation text)) := by
  rw [methodFindings]
  refine (allows_true _).bind fun returnType _ => (allows_true _).bind fun parameters _ => ?_
  cases trailer with
  | body opening =>
    refine (allows_true _).some.bind fun body? hbody => .ok (.append ?_ (documents_entered rfl))
    obtain ⟨body, rfl, -⟩ := hbody
    exact documents_checkTerminated _ _ _ _
  | declaration stop =>
    exact .ok (Documents.append (List.forall_mem_nil _) (documents_entered rfl))

theorem findMethod_documents : Allows (findMethod (language.subject text) scan found)
    (Documents (IsDocumentation text)) := by
  rw [findMethod]
  split
  · refine (allows_true _).bind fun starts _ => ?_
    split
    · exact .ok (List.forall_mem_nil _)
    · dsimp only
      split
      · refine (allows_true _).bind fun trailer _ => ?_
        split
        · split
          · exact methodFindings_documents
          · exact .ok (List.forall_mem_nil _)
        · exact .ok (List.forall_mem_nil _)
      · exact .ok (List.forall_mem_nil _)
  · exact .ok (List.forall_mem_nil _)

/-- The entries of Java are documented by what is found above their first lines. -/
theorem rules_document (text : List Char) : ∀ rule ∈ language.rules, ∀ scan found,
    Allows (rule.apply (language.subject text) scan found) (Documents (IsDocumentation text)) := by
  intro rule hr scan found
  simp only [language, List.mem_cons, List.not_mem_nil, or_false] at hr
  rcases hr with rfl | rfl | rfl | rfl | rfl <;> dsimp only
  · exact findPackage_among.mono fun _ hk =>
      documents_of_among hk (by decide) (by decide) (by decide)
  · exact findImport_among.mono fun _ hk =>
      documents_of_among hk (by decide) (by decide) (by decide)
  · exact findType_documents
  · exact findMethod_documents
  · exact findField_among.mono fun _ hk =>
      documents_of_among hk (by decide) (by decide) (by decide)

theorem isDocumentation_of_mem (text : List Char) :
    ∀ told ∈ (Registry.java.parse text).documentation, IsDocumentation text told := by
  rw [Extractor.parse]
  split
  · next summary hok => exact Language.extract_documentation (rules_document text) summary hok
  · exact List.forall_mem_nil _

end Java

/-! ## Hidden documentation -/

namespace Registry

open Docstring (documenting)

/-- What documents a function, a method or a class of a Java text is read off lines of the text,
and these show no code, hidden where comments are hidden, exactly when one run of comments, from
a place in code on, covers them all. -/
theorem hidden_documentation_iff (text : List Char) :
    ∀ told ∈ (java.parse text).documentation,
      told.2.toList = Text.trim (Text.join ['\n']
          ((documenting text told.1 Java.docSkipped).map (Docstring.unmark ·.text))) ∧
        ((∀ part ∈ documenting text told.1 Java.docSkipped, part.hidden text .java = true) ↔
          ∃ front comment rear, text = front ++ (comment ++ rear) ∧
            Java.CommentRun front comment rear ∧
            ∀ part ∈ documenting text told.1 Java.docSkipped,
              Text.width front ≤ part.start text ∧
                part.stop text ≤ Text.width (front ++ comment)) := by
  intro told htold
  rw [Java.isDocumentation_of_mem text told htold, String.toList_ofList,
    Docstring.find_eq_parts]
  exact ⟨rfl, Docstring.hidden_documenting_iff text told.1 Java.docSkipped⟩

/-- A line that starts and ends with a comment is taken for one, with the code in between. -/
theorem hidden_documentation_between :
    ∃ text, (3, "a */ int x; /* b") ∈ (java.parse text).documentation ∧
      ¬ ∃ front comment rear, text = front ++ (comment ++ rear) ∧
        Java.CommentRun front comment rear ∧
        ∀ part ∈ documenting text 3 Java.docSkipped,
          Text.width front ≤ part.start text ∧
            part.stop text ≤ Text.width (front ++ comment) := by
  refine ⟨"class A \x7b\n/* a */ int x; /* b */\nvoid f() \x7b\x7d\n\x7d\n".toList, ?_⟩
  have hmem : (3, "a */ int x; /* b") ∈ (java.parse
      "class A \x7b\n/* a */ int x; /* b */\nvoid f() \x7b\x7d\n\x7d\n".toList).documentation := by
    decide +kernel
  have hpart : (⟨2, [], "/* a */ int x; /* b */".toList⟩ : Docstring.Part) ∈ documenting
      "class A \x7b\n/* a */ int x; /* b */\nvoid f() \x7b\x7d\n\x7d\n".toList 3
        Java.docSkipped := by
    decide +kernel
  refine ⟨hmem, fun hrun => ?_⟩
  have hhidden := (hidden_documentation_iff _ _ hmem).2.mpr hrun _ hpart
  revert hhidden
  decide +kernel

end Registry
end Outline
