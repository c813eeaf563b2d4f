import Outline.Proofs.Extraction.Java.ClassMatches
import Outline.Proofs.Extraction.Java.Head
import Outline.Proofs.Extraction.Registry
import Outline.Proofs.Extraction.Scan
import Outline.Proofs.Text.Line

/-!
# A class with a method on every line, as it is recorded

The class is recorded at its head, with its first line and its last.  The match of each method
records the method on its line, as long as the class is known by then.
-/

namespace Outline

namespace Java

open Parameter (IsIdent)

variable {className name : List Char} {names earlier later : List (List Char)}
variable {subject : Subject} {scan : Scan} {found : Match}

/-- All views of a subject are the text of a class, and hide nothing of it. -/
structure IsClass (className : List Char) (names : List (List Char)) (subject : Subject) : Prop where
  named : IsIdent className
  idents : ∀ name ∈ names, IsIdent name
  of : subject.Of (classText className names)
  text : subject.source.text = classText className names
  stripped : subject.source.stripped = classText className names
  masked : subject.masked = classText className names
  braces : subject.source.braces = .ofText (classText className names)
  dependencies : subject.dependencies = dependencyRules

theorem isClass_subject (hC : IsIdent className) (hn : ∀ name ∈ names, IsIdent name) :
    IsClass className names (language.subject (classText className names)) := by
  obtain ⟨hstripped, hmasked⟩ := Mask.views_of_isBare (isBare_classText hC hn)
  exact ⟨hC, hn, language.subject_of _, rfl, hstripped, hmasked,
    congrArg BraceIndex.ofText hmasked, rfl⟩

namespace IsClass

section
variable (h : IsClass className names subject) {before rest : List Char}
include h

/-- A place lies on the line after as many line feeds as come before it. -/
theorem lineOf_width (ht : classText className names = before ++ rest) :
    subject.lineOf (Text.width before) = before.count '\n' + 1 := by
  rw [Subject.lineOf, SourceText.lineOf, h.of.index, ht]
  exact LineIndex.lineOf_width before rest

/-- A balanced group closes where it ends. -/
theorem find_eq {opening closing : Char} {inner : List Char}
    (hc : Delimiter.closing? opening = some closing)
    (hi : Delimiter.balanced opening closing inner = true)
    (ht : classText className names = before ++ opening :: (inner ++ closing :: rest)) :
    Delimiter.find subject.masked (Text.width before) =
      ⟨Text.width before + 1 + Text.width inner, true⟩ := by
  have hbare := isBare_classText h.named h.idents
  rw [ht] at hbare
  rw [h.masked, ht]
  exact Delimiter.find_of_balanced hc hi (Text.isBare_group (Text.isBare_of_append hbare))

end

end IsClass

/-! ## The class -/

/-- The class of the text, whatever methods are known of it. -/
structure ClassDrafted (className : List Char) (count : Nat) (draft : ClassDraft) : Prop where
  name : draft.entry.name = String.ofList className
  kind : draft.entry.kind = .ordinary
  properties : draft.entry.properties = []
  startLine : draft.entry.startLine = 1
  endLine : draft.entry.endLine = count + 2
  opening : draft.opening = Text.width (classHead className)

/-- The body of the class closes on its last line. -/
theorem IsClass.body_closes (h : IsClass className names subject) :
    (Delimiter.find subject.masked (Text.width (classHead className))).terminated = true ∧
      subject.lineOf (Delimiter.find subject.masked (Text.width (classHead className))).close =
        names.length + 2 := by
  have hgroup : classText className names = classHead className ++ '\x7b' ::
      ((names.flatMap member ++ ['\n']) ++ '\x7d' :: ['\n']) := by
    rw [classText_eq, behind, List.append_assoc]
    rfl
  have hbefore : classText className names =
      (classHead className ++ '\x7b' :: (names.flatMap member ++ ['\n'])) ++ ['\x7d', '\n'] := by
    rw [hgroup, List.append_assoc (classHead _), List.cons_append]
  have hline := h.lineOf_width hbefore
  rw [Text.width_append, Text.width_cons, ← Nat.add_assoc, List.count_append,
    count_feed_classHead h.named, List.count_cons_of_ne (by decide), List.count_append,
    count_feed_members h.idents, Nat.zero_add] at hline
  rw [h.find_eq rfl (balanced_members h.idents (by decide)) hgroup]
  exact ⟨rfl, hline⟩

theorem findType_class (h : IsClass className names subject) (hstart : found.start = 0)
    (hname : found.part? .name = some ⟨13, className⟩) (hkind : found.text .kind = "class".toList)
    {declaration : Capture} (hdecl : found.part? .declaration = some declaration)
    (hdeclared : declaration.start = 0) :
    Yields (findType subject scan found) fun findings => ∃ draft, findings = [.classBody draft] ∧
      ClassDrafted className names.length draft ∧ draft.entry.methods = [] := by
  have hpublic : Text.width "public class ".toList = 13 := by decide
  have hstop : (Capture.mk 13 className).stop = Text.width ("public class ".toList ++ className) := by
    rw [Text.width_append, hpublic]
    rfl
  have hopening : Text.width ("public class ".toList ++ className) + 1 =
      Text.width (classHead className) := by
    rw [classHead_eq, Text.width_append (_ ++ _)]
    rfl
  have htext : classText className names =
      ("public class ".toList ++ className) ++ ' ' :: '\x7b' :: behind names := by
    rw [classText_eq, classHead_eq, List.append_assoc (_ ++ _)]
    rfl
  have hopen : Statement.bodyOpen? subject.masked (Capture.mk 13 className).stop =
      some (Text.width (classHead className)) := by
    have hbody := Statement.bodyOpen?_append ("public class ".toList ++ className) [' '] (behind names)
      (by decide)
    rw [Text.width_append (_ ++ _)] at hbody
    rw [h.masked, htext, hstop, ← hopening]
    exact hbody
  have hheader : headerStart subject.masked .ordinary (Capture.mk 13 className).stop =
      (Text.width (classHead className), none) := by
    rw [h.masked, htext, hstop, ← hopening]
    exact headerStart_behind_space _ _ _ rfl (by decide) (by decide)
  have hpart : subject.source.maskedPart (min (Text.width (classHead className))
      (Text.width (classHead className))) (Text.width (classHead className)) = .ok [] := by
    have hempty := SourceText.part_of_append [] (classText_eq className names)
    rw [Text.width_nil, Nat.add_zero, ← h.masked] at hempty
    rw [Nat.min_self]
    exact hempty
  have hbrace : Text.charAt? subject.masked (Text.width (classHead className)) = some '\x7b' :=
    Text.charAt?_eq_some_iff.mpr ⟨_, _, h.masked.trans (classText_eq _ _), rfl⟩
  obtain ⟨hterminated, hlast⟩ := h.body_closes
  have hstarts : Statement.startsAt subject.masked found.start false = .ok true := by
    rw [hstart]
    exact Statement.startsAt_zero _ _
  rw [findType, hdecl, hname]
  refine (show Yields _ (· = true) from ⟨true, hstarts, rfl⟩).bind ?_
  rintro _ rfl
  rw [if_pos rfl, hopen]
  refine (typeFindings_ordinary h.of hkind hheader hpart rfl hbrace hterminated).mono ?_
  rintro _ ⟨draft, rfl, hdraft⟩
  refine ⟨draft, rfl, ⟨hdraft.name, hdraft.kind, hdraft.properties, ?_, hdraft.endLine.trans hlast,
    hdraft.opening⟩, hdraft.methods⟩
  rw [hdraft.startLine, hdeclared]
  have hfront : classText className names = [] ++ classText className names := rfl
  exact h.lineOf_width hfront

/-! ## Methods -/

/-- A method that returns its parameter, on one line. -/
structure ShowsMethod (line : Nat) (name : List Char) (entry : FunctionEntry) : Prop where
  name : entry.name = String.ofList name
  startLine : entry.startLine = line
  endLine : entry.endLine = line
  returnType : entry.returnType = some "int"
  parameters : entry.parameters = [⟨"x", "int", false, none⟩]
  isExported : entry.isExported = true
  complexity : entry.complexity = 1
  dependencies : entry.dependencies = .empty

/-- A method with what stands in front of it, up to its parenthesis. -/
def methodFront (className : List Char) (earlier : List (List Char)) (name : List Char) :
    List Char := lead className earlier ++ ("public int ".toList ++ name)

theorem classText_eq_methodFront (className : List Char) (earlier : List (List Char))
    (name : List Char) (later : List (List Char)) : classText className (earlier ++ name :: later) =
      methodFront className earlier name ++ (bodyText ++ behind later) := by
  rw [classText_eq_lead, methodFront]
  simp only [List.append_assoc]

namespace IsClass

variable (h : IsClass className (earlier ++ name :: later) subject)
include h

theorem ident : IsIdent name := h.idents name (by simp)

theorem earlier_ident : ∀ other ∈ earlier, IsIdent other := fun other ho =>
  h.idents other (List.mem_append_left _ ho)

theorem starts_method : Statement.startsAt subject.masked (Text.width (lead className earlier)) false =
    .ok true := by
  rw [h.masked, classText_eq_lead, Statement.startsAt_append, startsAfter_lead]

/-- A method is in the class. -/
theorem classAt?_method {draft : ClassDraft}
    (hblock : scan.blockAt? (Text.width (classHead className)) = some (.classBody 0))
    (hclass : scan.classes = [draft]) :
    scan.classAt? subject (Text.width (lead className earlier)) = some (0, draft) := by
  have hplace : classText className (earlier ++ name :: later) = classHead className ++ '\x7b' ::
      ((earlier.flatMap member ++ indent) ++
        ("public int ".toList ++ (name ++ (bodyText ++ behind later)))) := by
    rw [classText_eq_lead, lead_eq, List.append_assoc, List.cons_append]
  rw [lead_eq]
  refine Scan.classAt?_of_balanced (h.braces.trans (congrArg BraceIndex.ofText hplace))
    (balanced_classHead h.named) (balanced_members h.earlier_ident (by decide)) hblock ?_
  rw [hclass]
  rfl

theorem find_parameters : Delimiter.find subject.masked (Text.width (methodFront className earlier name)) =
    ⟨Text.width (methodFront className earlier name) + 6, true⟩ := by
  have hinner : Text.width "int x".toList = 5 := by decide
  have hbody : bodyText = '(' :: ("int x".toList ++ ')' :: " \x7b return x; \x7d".toList) := by decide
  have htext := classText_eq_methodFront className earlier name later
  rw [hbody, List.cons_append, List.append_assoc] at htext
  rw [h.find_eq rfl (by decide) htext, hinner]

theorem parameters_eq : subject.source.strippedPart
    (Text.width (methodFront className earlier name) + 1)
    (Text.width (methodFront className earlier name) + 6) = .ok "int x".toList := by
  have hinner : Text.width "int x".toList = 5 := by decide
  have hbody : bodyText = ['('] ++ ("int x".toList ++ ") \x7b return x; \x7d".toList) := by decide
  have htext := classText_eq_methodFront className earlier name later
  rw [hbody, List.append_assoc, List.append_assoc, ← List.append_assoc (methodFront _ _ _)] at htext
  have hpart := SourceText.part_of_append _ htext
  rw [Text.width_append, hinner, ← h.stripped] at hpart
  exact hpart

theorem trailer?_method : trailer? subject.masked (Text.width (methodFront className earlier name) + 6 + 1) =
    .ok (some (.body (Text.width (methodFront className earlier name) + 6 + 1 + 1))) := by
  have hwidth : Text.width (methodFront className earlier name ++ "(int x)".toList) =
      Text.width (methodFront className earlier name) + 6 + 1 := by
    rw [Text.width_append, show Text.width "(int x)".toList = 7 from by decide]
  have hbody : bodyText = "(int x)".toList ++ (' ' :: '\x7b' :: " return x; \x7d".toList) := by decide
  have htext := classText_eq_methodFront className earlier name later
  rw [hbody, List.append_assoc, ← List.append_assoc (methodFront _ _ _)] at htext
  rw [← hwidth, h.masked, htext]
  exact trailer?_behind_space _ _

theorem declaredReturn_method (hf : MethodAt (Text.width (lead className earlier)) name found) :
    declaredReturn subject found = .ok (some "int".toList) := by
  have hpublic : Text.width "public ".toList = 7 := by decide
  have hwords : "public int ".toList = "public ".toList ++ ("int".toList ++ [' ']) := by decide
  have htext := classText_eq_lead className earlier name later
  rw [hwords, List.append_assoc, List.append_assoc, ← List.append_assoc (lead _ _)] at htext
  have hpart := SourceText.part_of_append _ htext
  rw [Text.width_append, hpublic, ← h.stripped] at hpart
  unfold declaredReturn
  rw [hf.typed]
  dsimp only
  rw [Subject.spelling, SourceText.strippedPart, Capture.stop]
  dsimp only
  rw [hpart]
  rfl

/-- The body of a method is read from its brace on. -/
theorem body_method : ∃ body,
    subject.body (Text.width (methodFront className earlier name) + 6 + 1 + 1) = .ok body ∧
      body.terminated = true ∧ body.endLine = 2 + earlier.length ∧ body.complexity = 1 ∧
      body.dependencies = .empty := by
  have hcomplexity : complexity "\x7b return x; \x7d".toList = 1 := by decide +kernel
  have hdependencies : Dependency.collect subject.dependencies "\x7b return x; \x7d".toList =
      .empty := by
    rw [h.dependencies]
    decide +kernel
  have hlead : Text.width "(int x) ".toList = 8 := by decide
  have hwhole : Text.width "\x7b return x; \x7d".toList = 13 := by decide
  have hinner : Text.width " return x; ".toList = 11 := by decide
  have htext := classText_eq_methodFront className earlier name later
  have hbody : bodyText = "(int x) ".toList ++ "\x7b return x; \x7d".toList := by decide
  have hgroup : "\x7b return x; \x7d".toList = '\x7b' :: (" return x; ".toList ++ ['\x7d']) := by
    decide
  rw [hbody, List.append_assoc, ← List.append_assoc (methodFront _ _ _)] at htext
  have hpart := SourceText.part_of_append _ htext
  have hfit := congrArg Text.width htext
  -- the last brace stands on the line of the method
  have hline : subject.lineOf (Text.width (methodFront className earlier name) + 6 + 1 + 1 + 12) =
      2 + earlier.length := by
    have hrest : bodyText = "(int x) \x7b return x; ".toList ++ ['\x7d'] := by decide
    have hlast := classText_eq_methodFront className earlier name later
    rw [hrest, List.append_assoc, ← List.append_assoc (methodFront _ _ _)] at hlast
    have hline := h.lineOf_width hlast
    rw [Text.width_append, show Text.width "(int x) \x7b return x; ".toList = 20 from by decide,
      List.count_append, methodFront, List.count_append, List.count_append,
      count_feed_lead h.named h.earlier_ident, count_feed_of_isIdent h.ident,
      show "public int ".toList.count '\n' = 0 from by decide,
      show "(int x) \x7b return x; ".toList.count '\n' = 0 from by decide] at hline
    rw [methodFront, hline]
    omega
  rw [hgroup, List.cons_append, List.append_assoc " return x; ".toList] at htext
  have hfind := h.find_eq rfl (by decide) htext
  rw [Text.width_append, hlead, hinner] at hfind
  rw [Text.width_append, hlead, hwhole, ← h.masked] at hpart
  rw [Text.width_append, Text.width_append, Text.width_append, hlead, hwhole, ← h.masked] at hfit
  have hmin : min (Text.width (methodFront className earlier name) + 8 + 1 + 11 + 1)
      (Text.width subject.masked) = Text.width (methodFront className earlier name) + 8 + 13 := by
    omega
  rw [Subject.body, show Text.width (methodFront className earlier name) + 6 + 1 + 1 =
    Text.width (methodFront className earlier name) + 8 from rfl, hfind]
  dsimp only
  rw [hmin, show subject.source.maskedPart _ _ = _ from hpart]
  refine ⟨_, rfl, rfl, hline, ?_, ?_⟩
  · dsimp only
    exact hcomplexity
  · dsimp only
    exact hdependencies

end IsClass

/-- What is read of a method that is found. -/
theorem methodFindings_at (h : IsClass className (earlier ++ name :: later) subject)
    (hf : MethodAt (Text.width (lead className earlier)) name found) {draft : ClassDraft}
    (howner : scan.classAt? subject found.start = some (0, draft)) {declaration : Capture}
    (hdeclared : declaration.start = Text.width (lead className earlier)) :
    Yields (methodFindings subject scan found declaration
      ⟨Text.width (lead className earlier) + 11, name⟩
      (Text.width (methodFront className earlier name) + 1)
      (Text.width (methodFront className earlier name) + 6)
      (.body (Text.width (methodFront className earlier name) + 6 + 1 + 1))) fun findings =>
        ∃ entry, findings = [.method 0 entry] ∧ ShowsMethod (2 + earlier.length) name entry := by
  have hread : Parameter.ofList parameterRules "int x".toList = [⟨"x", "int", false, none⟩] := by
    decide +kernel
  have hline : subject.lineOf (Text.width (lead className earlier)) = 2 + earlier.length := by
    rw [h.lineOf_width (classText_eq_lead className earlier name later),
      count_feed_lead h.named h.earlier_ident]
    omega
  obtain ⟨body, hok, hterminated, hend, hcomplexity, hdependencies⟩ := h.body_method
  have hquiet : subject.checkTerminated body name declaration.start = [] := by
    rw [Subject.checkTerminated, hterminated]
    rfl
  rw [methodFindings, howner, h.declaredReturn_method hf]
  refine (show Yields _ (· = some "int".toList) from ⟨_, rfl, rfl⟩).bind ?_
  rintro _ rfl
  refine (show Yields _ (· = "int x".toList) from ⟨_, h.parameters_eq, rfl⟩).bind ?_
  rintro _ rfl
  dsimp only
  rw [hok]
  refine .ok ⟨_, congrArg (· ++ _) hquiet, ?_⟩
  constructor <;> dsimp only
  · rw [hdeclared, hline]
  · exact hend
  · rfl
  · exact hread
  · rw [modifiersOf, hf.modified]
    rfl
  · exact hcomplexity
  · exact hdependencies

/-- A method that is found is recorded on its line. -/
theorem findMethod_at (h : IsClass className (earlier ++ name :: later) subject)
    (hkey : oneOfWords keywords name = false)
    (hf : MethodAt (Text.width (lead className earlier)) name found) {draft : ClassDraft}
    (hblock : scan.blockAt? (Text.width (classHead className)) = some (.classBody 0))
    (hclass : scan.classes = [draft]) :
    Yields (findMethod subject scan found) fun findings =>
      ∃ entry, findings = [.method 0 entry] ∧ ShowsMethod (2 + earlier.length) name entry := by
  obtain ⟨declaration, hdecl, hdeclared⟩ := hf.declared
  have hstarts : Statement.startsAt subject.masked found.start false = .ok true := by
    rw [hf.starts]
    exact h.starts_method
  have howner : scan.classAt? subject found.start = some (0, draft) := by
    rw [hf.starts]
    exact h.classAt?_method hblock hclass
  have hstop : found.stop - 1 = Text.width (methodFront className earlier name) := by
    rw [hf.stops, methodFront, Text.width_append, Text.width_append (lead _ _)]
    show Text.width (lead className earlier) + (Text.width ("public int ".toList ++ name) + 1) - 1 = _
    omega
  have hkeys : (oneOfWords keywords name || !true || oneOfWords keywords (found.text .type)) = false := by
    rw [hkey, Match.text, hf.typed]
    show (false || !true || oneOfWords keywords "int".toList) = false
    decide
  have hhere : ∀ trailer, isMethodHere subject scan found
      ⟨Text.width (lead className earlier) + 11, name⟩ trailer = true := by
    intro trailer
    unfold isMethodHere
    rw [howner, hf.typed]
    rfl
  rw [findMethod, hdecl, hf.named]
  refine (show Yields _ (· = true) from ⟨true, hstarts, rfl⟩).bind ?_
  rintro _ rfl
  dsimp only
  rw [if_neg (by rw [hkeys]; decide), hstop, h.find_parameters, if_pos rfl]
  refine (show Yields _ (· = some (.body (Text.width (methodFront className earlier name) + 6 + 1 + 1)))
    from ⟨_, h.trailer?_method, rfl⟩).bind ?_
  rintro _ rfl
  dsimp only
  rw [if_pos (hhere _)]
  exact methodFindings_at h hf howner hdeclared

end Java
end Outline

/-!
## A class with a method on every line

No method of such a class is lost, however many there are: the matches of the methods are taken in
order, each adds one method, and no other rule finds anything but the class.
-/

namespace Outline
namespace Java

open Parameter (IsIdent)

variable {className name : List Char} {names earlier later : List (List Char)}
variable {subject : Subject} {scan : Scan} {found : Match}

/-! ### The scan -/

/-- A scan holds the class with methods for some names, on the lines from the second one on, and
nothing else. -/
structure HoldsMethods (className : List Char) (count : Nat) (earlier : List (List Char))
    (scan : Scan) : Prop where
  classes : ∃ draft, scan.classes = [draft] ∧ ClassDrafted className count draft ∧
    List.Forall₂ (fun shown entry => ShowsMethod shown.2 shown.1 entry) (earlier.zipIdx 2)
      draft.entry.methods
  block : scan.blockAt? (Text.width (classHead className)) = some (.classBody 0)
  functions : scan.functions = []
  errors : scan.errors = []
  warnings : scan.warnings = []

theorem HoldsMethods.record {count : Nat} {entry : FunctionEntry}
    (h : HoldsMethods className count earlier scan)
    (he : ShowsMethod (2 + earlier.length) name entry) :
    HoldsMethods className count (earlier ++ [name]) (scan.record (.method 0 entry)) := by
  obtain ⟨⟨draft, hclasses, hdraft, hmethods⟩, hblock, hfunctions, herrors, hwarnings⟩ := h
  refine ⟨⟨{ draft with entry := { draft.entry with methods := draft.entry.methods ++ [entry] } },
    ?_, ?_, ?_⟩, hblock, hfunctions, herrors, hwarnings⟩
  · rw [Scan.record, hclasses]
    rfl
  · exact ⟨hdraft.name, hdraft.kind, hdraft.properties, hdraft.startLine, hdraft.endLine,
      hdraft.opening⟩
  · rw [List.zipIdx_append]
    exact List.rel_append hmethods (.cons he .nil)

/-- Each method adds itself, so in the end all are held. -/
theorem run_laid {founds : List Match} (h : IsClass className names subject)
    (hkey : ∀ name ∈ names, oneOfWords keywords name = false)
    (hl : Laid className earlier later founds) (hall : earlier ++ later = names) {count : Nat}
    (hs : HoldsMethods className count earlier scan) :
    Yields (founds.foldlM (Rule.step ⟨.masked, methodPattern, findMethod⟩ subject) scan)
      (HoldsMethods className count names) := by
  induction hl generalizing scan with
  | nil earlier =>
    rw [List.append_nil] at hall
    exact .ok (hall ▸ hs)
  | @cons earlier later name found founds hf _ ih =>
    have hmem : name ∈ names := hall ▸ by simp
    obtain ⟨draft, hclasses, -⟩ := hs.classes
    rw [List.foldlM_cons]
    refine Yields.bind (P := HoldsMethods className count (earlier ++ [name])) ?_ fun scan hs =>
      ih (hall ▸ (List.append_cons _ _ _).symm) hs
    subst hall
    refine (findMethod_at h (hkey name hmem) hf hs.block hclasses).map ?_
    rintro _ ⟨entry, rfl, hentry⟩
    exact hs.record hentry

/-- The statements that return values are no fields. -/
theorem findField_return (hf : fieldPattern.FoundIn subject.masked found)
    (htype : found.text .type = "return".toList) : Yields (findField subject scan found) (· = []) := by
  rw [findField]
  split
  · next type name index draft hpart _ _ =>
    refine (Statement.startsAt_yields hf.whole_at.isBoundary_start false).bind fun starts _ => ?_
    have hkeyword : oneOfWords keywords type.text = true := by
      rw [Match.text, hpart] at htype
      rw [show type.text = "return".toList from htype]
      decide
    rw [hkeyword, Bool.true_or, if_pos rfl]
    exact .ok rfl
  · exact .ok rfl

theorem scan_class (hC : IsIdent className) (hn : ∀ name ∈ names, IsIdent name)
    (hkey : ∀ name ∈ names, oneOfWords keywords name = false) :
    Yields (language.scan (language.subject (classText className names)))
      (HoldsMethods className names.length names) := by
  have h := isClass_subject hC hn
  generalize language.subject (classText className names) = subject at h
  have hpackage : packagePattern.findAll subject.masked = [] := h.masked ▸ findAll_package hC hn
  have himport : importPattern.findAll subject.source.text = [] := h.text ▸ findAll_import hC hn
  obtain ⟨found, htypes, hstart, hname, hkind, -, declaration, hdecl, hdeclared⟩ :=
    findAll_type hC hn
  rw [← h.masked] at htypes
  rw [scan_eq]
  refine Yields.bind_of_eq (Rule.run_of_findAll_nil hpackage _) ?_
  refine Yields.bind_of_eq (Rule.run_of_findAll_nil himport _) ?_
  refine Yields.bind (P := HoldsMethods className names.length []) ?_ fun scan hs => ?_
  · refine Rule.run_of_findAll_cons htypes
      ((findType_class h hstart hname hkind hdecl hdeclared).mono ?_) nofun
    rintro _ ⟨draft, rfl, hdraft, hmethods⟩
    refine ⟨⟨draft, rfl, hdraft, ?_⟩, ?_, rfl, rfl, rfl⟩
    · rw [hmethods]
      exact .nil
    · show [(draft.opening, Block.classBody 0)].lookup (Text.width (classHead className)) = _
      rw [hdraft.opening, List.lookup_cons, beq_self_eq_true]
  refine Yields.bind (P := HoldsMethods className names.length names) ?_ fun scan hs => ?_
  · show Yields ((methodPattern.findAll subject.masked).foldlM _ scan) _
    rw [h.masked]
    exact run_laid h hkey (laid_methods hC hn) rfl hs
  refine Rule.run_yields (fun scan hs found hf => ?_) hs
  have hfields := type_of_mem_fields hC hn found (by rw [← h.masked]; exact hf)
  refine (findField_return (Pattern.foundIn_of_mem_findAll hf) hfields).mono ?_
  rintro _ rfl
  exact hs

/-! ### The summary -/

/-- Methods on successive lines are in the order of their lines. -/
theorem inOrder_of_shows {line : Nat} {entries : List FunctionEntry}
    (h : List.Forall₂ (fun shown entry => ShowsMethod shown.2 shown.1 entry) (names.zipIdx line)
      entries) :
    (∀ entry ∈ entries, line ≤ entry.startLine) ∧
      entries.Pairwise fun a b => a.startLine ≤ b.startLine := by
  induction names generalizing line entries with
  | nil =>
    rw [List.forall₂_nil_left_iff.mp h]
    exact ⟨nofun, .nil⟩
  | cons name names ih =>
    rw [List.zipIdx_cons] at h
    obtain ⟨entry, rest, hentry, hrest, rfl⟩ := List.forall₂_cons_left_iff.mp h
    obtain ⟨hlater, hpairs⟩ := ih hrest
    have hline : entry.startLine = line := hentry.startLine
    have hle : ∀ other ∈ rest, line ≤ other.startLine := fun other ho =>
      Nat.le_of_succ_le (hlater other ho)
    refine ⟨List.forall_mem_cons.mpr ⟨Nat.le_of_eq hline.symm, hle⟩,
      List.pairwise_cons.mpr ⟨fun other ho => ?_, hpairs⟩⟩
    rw [hline]
    exact hle other ho

/-- A class with plain methods, one on every line of its body, is read back whole: the class from
its first line to its last, every method in order and on its line, and nothing else. -/
theorem parse_classText {className : List Char} (hC : IsIdent className)
    {names : List (List Char)} (hn : ∀ name ∈ names, IsIdent name)
    (hkey : ∀ name ∈ names, oneOfWords keywords name = false) :
    ∃ entry, (Registry.java.parse (classText className names)).classes = [entry] ∧
      (Registry.java.parse (classText className names)).functions = [] ∧
      (Registry.java.parse (classText className names)).syntaxErrors = [] ∧
      (Registry.java.parse (classText className names)).warnings = [] ∧
      entry.name = String.ofList className ∧ entry.kind = .ordinary ∧ entry.startLine = 1 ∧
      entry.endLine = names.length + 2 ∧ entry.properties = [] ∧
      List.Forall₂ (fun shown method => ShowsMethod shown.2 shown.1 method) (names.zipIdx 2)
        entry.methods := by
  obtain ⟨scan, hscan, ⟨draft, hclasses, hdraft, hmethods⟩, -, hfunctions, herrors, hwarnings⟩ :=
    scan_class hC hn hkey
  have hhints : language.hints (language.subject (classText className names)) = [] := by
    rw [Language.hints, (isClass_subject hC hn).masked, check_classText hC hn]
    rfl
  have hparse : Registry.java.parse (classText className names) = scan.finish "java" := by
    refine Extractor.parse_eq ?_
    show Language.extract language (classText className names) = _
    rw [Language.extract, hscan, hhints]
    rfl
  rw [hparse]
  refine ⟨Scan.finishClass draft, ?_, ?_, ?_, ?_, hdraft.name, hdraft.kind, hdraft.startLine,
    hdraft.endLine, ?_, ?_⟩
  · rw [Scan.finish, hclasses]
    rfl
  · rw [Scan.finish, hfunctions, List.mergeSort_nil]
  · rw [Scan.finish, herrors, List.mergeSort_nil]
  · rw [Scan.finish, hwarnings, List.mergeSort_nil]
  · rw [Scan.finishClass, hdraft.properties, List.mergeSort_nil]
  · -- The methods are in the order of their lines already.
    have hsorted : draft.entry.methods.mergeSort (fun a b => a.startLine ≤ b.startLine) =
        draft.entry.methods := by
      refine List.mergeSort_of_pairwise ?_
      exact (inOrder_of_shows hmethods).2.imp fun hab => decide_eq_true hab
    rw [Scan.finishClass, hsorted]
    exact hmethods

/-- Names may start with words of the language or be as long as one of its words. -/
theorem parse_classText_lookalikes :
    IsIdent "Shop".toList ∧ (∀ name ∈ ["publicKey".toList, "ints".toList], IsIdent name) ∧
      (∀ name ∈ ["publicKey".toList, "ints".toList], oneOfWords keywords name = false) ∧
      ∃ first second entry,
        (Registry.java.parse (classText "Shop".toList ["publicKey".toList, "ints".toList])).classes =
          [entry] ∧ entry.methods = [first, second] ∧ ShowsMethod 2 "publicKey".toList first ∧
            ShowsMethod 3 "ints".toList second := by
  have hC : IsIdent "Shop".toList := ⟨⟨'S', rfl, rfl⟩, by decide⟩
  have hn : ∀ name ∈ ["publicKey".toList, "ints".toList], IsIdent name := by
    rw [List.forall_mem_cons, List.forall_mem_singleton]
    exact ⟨⟨⟨'p', rfl, rfl⟩, by decide⟩, ⟨⟨'i', rfl, rfl⟩, by decide⟩⟩
  have hkey : ∀ name ∈ ["publicKey".toList, "ints".toList], oneOfWords keywords name = false := by
    decide
  obtain ⟨entry, hclasses, -, -, -, -, -, -, -, -, hmethods⟩ := parse_classText hC hn hkey
  obtain ⟨first, rest, hfirst, hrest, hall⟩ := List.forall₂_cons_left_iff.mp hmethods
  obtain ⟨second, others, hsecond, hothers, rfl⟩ := List.forall₂_cons_left_iff.mp hrest
  obtain rfl := List.forall₂_nil_left_iff.mp hothers
  exact ⟨hC, hn, hkey, first, second, entry, hclasses, hall, hfirst, hsecond⟩

end Java
end Outline
