import Outline.Proofs.Extraction.Java.ElementMatch
import Outline.Proofs.Extraction.Java.Head
import Outline.Proofs.Extraction.Kind
import Outline.Proofs.Extraction.Registry
import Outline.Proofs.Extraction.Scan
import Outline.Proofs.Text.Line

/-!
# How the element of an annotation is recorded

The annotation is recorded as a class at its head, and the element as a method of it.  What follows
the parentheses of the element is read up to the first brace or semicolon.  So a default without
braces ends the element with its semicolon, and the first brace of any other default is taken for
the one of a body.
-/

namespace Outline
namespace Java

variable {subject : Subject} {scan : Scan} {found : Match}

/-! ## Methods with a body and without -/

section

variable {declaration name : Capture} {start stop index : Nat} {draft : ClassDraft}

/-- A method that ends without a body is abstract. -/
theorem methodFindings_declaration {last : Nat}
    (howner : scan.classAt? subject found.start = some (index, draft)) :
    Allows (methodFindings subject scan found declaration name start stop (.declaration last))
      fun findings => ∃ entry, findings = [.method index entry] ∧
        entry.name = String.ofList name.text ∧ entry.isAbstract = true ∧ entry.complexity = 1 ∧
        entry.dependencies = .empty ∧ entry.endLine = subject.lineOf last := by
  rw [methodFindings, howner]
  refine (allows_true _).bind fun returnType _ => (allows_true _).bind fun parameters _ => ?_
  exact .ok ⟨_, rfl, rfl, rfl, rfl, rfl, rfl⟩

/-- A method with a body is not. -/
theorem methodFindings_body {opening : Nat}
    (howner : scan.classAt? subject found.start = some (index, draft)) :
    Allows (methodFindings subject scan found declaration name start stop (.body opening))
      fun findings => ∃ warnings entry, findings = warnings ++ [.method index entry] ∧
        Finding.Among [.warning] warnings ∧ entry.isAbstract = false := by
  rw [methodFindings, howner]
  refine (allows_true _).bind fun returnType _ => (allows_true _).bind fun parameters _ => ?_
  refine (allows_true _).some.bind fun result hresult => ?_
  obtain ⟨body, rfl, -⟩ := hresult
  exact .ok ⟨_, _, rfl, Finding.among_checkTerminated (by simp) _ _ _ _, rfl⟩

end

/-! ## Types -/

/-- A type is recorded in front of its members. -/
theorem typeFindings_opens {declaration name : Capture} {opening : Nat} :
    Allows (typeFindings subject scan found declaration name opening) fun findings =>
      ∃ draft members, findings = .classBody draft :: members ∧
        Finding.Among [.warning, .property] members ∧
        draft.entry.name = String.ofList name.text ∧ draft.entry.methods = [] ∧
        draft.opening = opening := by
  rw [typeFindings]
  refine (allows_true _).bind fun header _ => (allows_true _).bind fun supertypes _ => ?_
  refine (allows_true _).bind fun body _ => ?_
  refine (recordComponents_properties _ _).bind fun components hcomponents => ?_
  have hmembers : Finding.Among [.warning, .property]
      (subject.checkTerminated body name.text declaration.start ++ components) :=
    (Finding.among_checkTerminated (by simp) _ _ _ _).append
      (among_of_properties hcomponents (by simp))
  dsimp only
  split
  · refine (enumConstants_properties _ _ _).bind fun constants hconstants => .ok ?_
    exact ⟨_, _, rfl, hmembers.append (among_of_properties hconstants (by simp)), rfl, rfl, rfl⟩
  · exact .ok ⟨_, _, rfl, hmembers.append Finding.among_nil, rfl, rfl, rfl⟩

namespace Element

variable {element : Element}

/-- The text up to the semicolon of the element. -/
def declared (element : Element) : List Char := front ++ (element.signature ++ element.clause)

/-! ## Views -/

/-- All views of a subject are the text, and hide nothing of it. -/
structure Shown (element : Element) (subject : Subject) : Prop where
  of : subject.Of element.text
  full : subject.source.text = element.text
  masked : subject.masked = element.text
  braces : subject.source.braces = .ofText element.text

theorem shown_subject (element : Element) : element.Shown (language.subject element.text) := by
  obtain ⟨-, hmasked⟩ := Mask.views_of_isBare element.isBare_text
  exact ⟨language.subject_of _, rfl, hmasked, congrArg BraceIndex.ofText hmasked⟩

namespace Shown

variable (h : element.Shown subject)
include h

theorem starts_method : Statement.startsAt subject.masked (Text.width front) false = .ok true := by
  have hstarts : Statement.startsAfter front false = true :=
    Statement.startsAfter_of_mark (by decide) head (by decide) false
  rw [h.masked, text, Statement.startsAt_append, hstarts]

theorem classAt?_method {draft : ClassDraft}
    (hblock : scan.blockAt? (Text.width head) = some (.classBody 0))
    (hclass : scan.classes[0]? = some draft) :
    scan.classAt? subject (Text.width front) = some (0, draft) := by
  have hspace : Delimiter.balanced '\x7b' '\x7d' [' '] = true := by decide
  exact Scan.classAt?_of_balanced
    (h.braces.trans (congrArg BraceIndex.ofText element.text_eq_head)) (by decide) hspace hblock
    hclass

theorem find_parameters :
    Delimiter.find subject.masked (Text.width (front ++ element.signature)) =
      ⟨Text.width (front ++ element.signature) + 1, true⟩ := by
  have htext : element.text = (front ++ element.signature) ++
      '(' :: ([] ++ ')' :: (" default ".toList ++ (element.value ++ [';', ' ', '\x7d']))) := by
    rw [text_eq_signature, List.append_assoc]
    rfl
  rw [h.masked, htext, Delimiter.find_of_balanced
    (rfl : Delimiter.closing? '(' = some ')') (rfl : Delimiter.balanced '(' ')' [] = true) rfl,
    Text.width_nil, Nat.add_zero]

/-- What follows the parameters is read up to the first brace or semicolon behind the word. -/
theorem trailer?_of_split {passed rest : List Char} {mark : Char}
    (hpassed : ∀ c ∈ passed, c ∈ element.value) (hbrace : '\x7b' ∉ passed)
    (hmark : mark ∈ ['\x7b', ';'])
    (hsplit : element.value ++ [';', ' ', '\x7d'] = passed ++ mark :: rest) :
    trailer? subject.masked (Text.width (front ++ element.signature) + 2) = .ok (some
      (if mark = '\x7b' then .body (Text.width (front ++ (element.signature ++
          (['(', ')'] ++ (" default ".toList ++ passed)))))
        else .declaration (Text.width (front ++ (element.signature ++
          (['(', ')'] ++ (" default ".toList ++ passed))))))) := by
  have hfree : ∀ c ∈ passed, c ∉ ['\x7b', ';'] := by
    intro c hc hmem
    simp only [List.mem_cons, List.not_mem_nil, or_false] at hmem
    rcases hmem with rfl | rfl
    · exact hbrace hc
    · exact element.whole (hpassed _ hc)
  have hspaced : ∀ c ∈ ' ' :: passed, c ∉ ['\x7b', ';'] :=
    List.forall_mem_cons.mpr ⟨by decide, hfree⟩
  have hparens : Text.width (front ++ element.signature) + 2 =
      Text.width (front ++ element.signature ++ ['(', ')']) := by
    rw [Text.width_append (front ++ _)]
    rfl
  have hdefault : " default ".toList = ' ' :: "default".toList ++ [' '] := by decide
  have htext : element.text = (front ++ element.signature ++ ['(', ')']) ++
      ' ' :: ("default".toList ++ (' ' :: passed ++ mark :: rest)) := by
    rw [text_eq_signature, hsplit, hdefault]
    simp only [List.append_assoc, List.cons_append, List.nil_append]
  have hwhole : front ++ (element.signature ++ (['(', ')'] ++ (" default ".toList ++ passed))) =
      front ++ element.signature ++ ['(', ')'] ++ ' ' :: ("default".toList ++ ' ' :: passed) := by
    rw [hdefault]
    simp only [List.append_assoc, List.cons_append, List.nil_append]
  rw [hparens, h.masked, htext, hwhole]
  exact trailer?_behind_default _ rest hspaced hmark

/-- Behind the parameters the first brace counts, or else the semicolon. -/
theorem exists_trailer : ∃ trailer,
    trailer? subject.masked (Text.width (front ++ element.signature) + 2) = .ok (some trailer) ∧
      ('\x7b' ∉ element.value → trailer = .declaration (Text.width element.declared)) ∧
      ('\x7b' ∈ element.value → ∃ opening, trailer = .body opening) := by
  by_cases hbrace : '\x7b' ∈ element.value
  · obtain ⟨passed, rest, hvalue, hpassed⟩ := List.eq_append_cons_of_mem hbrace
    have hsplit : element.value ++ [';', ' ', '\x7d'] =
        passed ++ '\x7b' :: (rest ++ [';', ' ', '\x7d']) := by
      rw [hvalue, List.append_assoc, List.cons_append]
    have hread := h.trailer?_of_split (fun c hc => hvalue ▸ List.mem_append_left _ hc) hpassed
      (by decide) hsplit
    exact ⟨_, hread, fun hmem => absurd hbrace hmem, fun _ => ⟨_, rfl⟩⟩
  · have hread := h.trailer?_of_split (fun c hc => hc) hbrace (by decide) rfl
    have hdeclared : element.declared = front ++ (element.signature ++
        (['(', ')'] ++ (" default ".toList ++ element.value))) := rfl
    exact ⟨_, hread, fun _ => by rw [hdeclared]; rfl, fun hmem => absurd hmem hbrace⟩

end Shown

/-! ## The element -/

/-- The element as it is recorded: as a method without a body on the lines up to its semicolon. -/
structure ShownAs (element : Element) (method : FunctionEntry) : Prop where
  name : method.name = String.ofList element.name
  isAbstract : method.isAbstract = true
  complexity : method.complexity = 1
  dependencies : method.dependencies = .empty
  endLine : method.endLine = element.declared.count '\n' + 1

/-- What is read of the element: all of it, or a method with a body. -/
def Read (element : Element) (method : FunctionEntry) : Prop :=
  if '\x7b' ∈ element.value then method.isAbstract = false else element.ShownAs method

theorem Shown.lineOf_declared (h : element.Shown subject) :
    subject.lineOf (Text.width element.declared) = element.declared.count '\n' + 1 := by
  have htext : element.text = element.declared ++ [';', ' ', '\x7d'] := by
    simp only [text, declared, List.append_assoc]
  rw [Subject.lineOf, SourceText.lineOf, h.of.index, htext]
  exact LineIndex.lineOf_width _ _

theorem findMethod_element (h : element.Shown subject)
    (hf : element.MethodMatch (Text.width front) found)
    (hfound : methodPattern.FoundIn subject.masked found) {draft : ClassDraft}
    (hblock : scan.blockAt? (Text.width head) = some (.classBody 0))
    (hclass : scan.classes[0]? = some draft) :
    Yields (findMethod subject scan found) fun findings => ∃ warnings method,
      findings = warnings ++ [.method 0 method] ∧ Finding.Among [.warning] warnings ∧
        element.Read method := by
  obtain ⟨trailer, htrailer, hended, hopened⟩ := h.exists_trailer
  obtain ⟨declaration, hdeclaration⟩ := hf.declaration
  obtain ⟨name, hname, hnamed⟩ := hf.name
  obtain ⟨type, htype, htyped⟩ := hf.type
  have howner : scan.classAt? subject found.start = some (0, draft) := by
    rw [hf.start]
    exact h.classAt?_method hblock hclass
  have hkeys : (oneOfWords keywords name.text || !true || oneOfWords keywords (found.text .type)) =
      false := by
    rw [hnamed, element.unreserved, Match.text, htype]
    show (false || !true || oneOfWords keywords type.text) = false
    rw [htyped, element.type.not_keyword]
    rfl
  have hhere : isMethodHere subject scan found name trailer = true := by
    unfold isMethodHere
    rw [howner, htype]
    rfl
  have hstop : found.stop - 1 = Text.width (front ++ element.signature) := by
    rw [hf.stop, Text.width_append, Nat.add_sub_cancel]
  have hstarts : Statement.startsAt subject.masked found.start false = .ok true := by
    rw [hf.start, h.starts_method]
  refine (findMethod_yields h.of hfound).with_allows ?_
  rw [findMethod, hdeclaration, hname]
  dsimp only
  rw [hstarts]
  refine (Allows.ok (P := (· = true)) rfl).bind ?_
  rintro _ rfl
  rw [if_neg (by rw [hkeys]; decide), hstop, h.find_parameters, if_pos rfl]
  dsimp only
  rw [Nat.add_assoc, htrailer]
  refine (Allows.ok (P := (· = some trailer)) rfl).bind ?_
  rintro _ rfl
  dsimp only
  rw [if_pos hhere]
  by_cases hbrace : '\x7b' ∈ element.value
  · obtain ⟨opening, rfl⟩ := hopened hbrace
    refine (methodFindings_body howner).mono ?_
    rintro _ ⟨warnings, method, rfl, hwarnings, habstract⟩
    exact ⟨warnings, method, rfl, hwarnings, by rwa [Read, if_pos hbrace]⟩
  · obtain rfl := hended hbrace
    refine (methodFindings_declaration howner).mono ?_
    rintro _ ⟨method, rfl, hname, habstract, hcomplexity, hdependencies, hend⟩
    refine ⟨[], method, rfl, Finding.among_nil, ?_⟩
    rw [Read, if_neg hbrace]
    exact ⟨hnamed ▸ hname, habstract, hcomplexity, hdependencies, hend.trans h.lineOf_declared⟩

/-! ## What else is found -/

/-- Where the default has no braces, no statement starts behind the start of the element. -/
theorem Shown.not_starts (h : element.Shown subject) (hbrace : '\x7b' ∉ element.value)
    {p : Pattern} (hp : p.consumes = true) (hclose : p.avoids '\x7d' = true)
    (hblank : ∀ code ∈ Text.blankCodes, p.avoids (Char.ofNat code) = true)
    (hf : p.FoundIn subject.masked found) (hpos : 0 < found.start)
    (hne : found.start ≠ Text.width front) :
    Statement.startsAt subject.masked found.start false = .ok false := by
  obtain ⟨before, rest, d, ms, htext, hm, rfl⟩ := hf
  obtain ⟨c, hc, havoids⟩ := hm.exists_head hp
  obtain ⟨rest, rfl⟩ := List.head?_eq_some_iff.mp hc
  have hletter : Text.isBlank c = false := by
    refine Bool.eq_false_iff.mpr fun hb => havoids c ?_ rfl
    have hcode := hblank c.toNat (Text.toNat_mem_of_isBlank hb)
    rwa [Char.ofNat_toNat] at hcode
  have hwidth : (Match.ofMarks (Text.width before) ⟨before.getLast?, 0, c :: rest⟩ d ms).start =
      Text.width before := rfl
  rw [hwidth] at hpos hne ⊢
  rw [htext, Statement.startsAt_append]
  refine congrArg Except.ok (Bool.eq_false_iff.mpr fun hstarts => ?_)
  rw [h.masked] at htext
  rcases element.first_of_startsAfter hbrace htext hletter hstarts with rfl | rfl | rfl
  · exact Nat.lt_irrefl 0 hpos
  · exact hne rfl
  · exact havoids '\x7d' hclose rfl

/-! ## The annotation -/

/-- The annotation is the only class, with methods of which something is known. -/
structure Holds (P : List FunctionEntry → Prop) (scan : Scan) : Prop where
  class_eq : ∃ draft, scan.classes = [draft] ∧ draft.entry.name = "A" ∧ P draft.entry.methods
  block : scan.blockAt? (Text.width head) = some (.classBody 0)

variable {P Q : List FunctionEntry → Prop}

theorem Holds.mono (hPQ : ∀ methods, P methods → Q methods) (h : Holds P scan) : Holds Q scan := by
  obtain ⟨⟨draft, hclasses, hname, hmethods⟩, hblock⟩ := h
  exact ⟨⟨draft, hclasses, hname, hPQ _ hmethods⟩, hblock⟩

/-- It is kept by what keeps its name and what is known of its methods. -/
theorem Holds.modify (h : Holds P scan) (index : Nat) {f : ClassDraft → ClassDraft}
    (hname : ∀ draft, (f draft).entry.name = draft.entry.name)
    (hmethods : ∀ draft, P draft.entry.methods → P (f draft).entry.methods) :
    Holds P { scan with classes := scan.classes.modify index f } := by
  obtain ⟨⟨draft, hclasses, hnamed, hknown⟩, hblock⟩ := h
  refine ⟨?_, hblock⟩
  cases index with
  | zero =>
    exact ⟨f draft, by rw [hclasses]; rfl, (hname draft).trans hnamed, hmethods draft hknown⟩
  | succ index => exact ⟨draft, by simp [hclasses], hnamed, hknown⟩

/-- Properties and warnings change nothing about it. -/
theorem Holds.record (h : Holds P scan) {finding : Finding}
    (hf : finding.kind ∈ [.warning, .property]) : Holds P (scan.record finding) := by
  cases finding with
  | warning => exact ⟨h.class_eq, h.block⟩
  | property index entry => exact h.modify index (fun _ => rfl) fun _ hmethods => hmethods
  | package | imported | block | classBody | label | abstractClass | method | function | error =>
    exact absurd hf (by simp [Finding.kind])

theorem Holds.recordAll (h : Holds P scan) {findings : List Finding}
    (hf : Finding.Among [.warning, .property] findings) : Holds P (scan.recordAll findings) :=
  Scan.recordAll_of_among (P := Holds P) (fun _ hs _ hk => hs.record hk) hf h

/-- A method of the annotation comes behind its others. -/
theorem Holds.record_method (h : Holds P scan) {method : FunctionEntry}
    (hQ : ∀ methods, P methods → Q (methods ++ [method])) :
    Holds Q (scan.record (.method 0 method)) := by
  obtain ⟨⟨draft, hclasses, hname, hmethods⟩, hblock⟩ := h
  exact ⟨⟨{ draft with entry := { draft.entry with methods := draft.entry.methods ++ [method] } },
    by rw [Scan.record, hclasses]; rfl, hname, hQ _ hmethods⟩, hblock⟩

/-- The match of the annotation records it. -/
theorem findType_head (h : element.Shown subject) (hs : scan.classes = []) :
    Yields (findType subject scan headFound) fun findings =>
      Holds (· = []) (scan.recordAll findings) := by
  have htext : element.text = "@interface A".toList ++ ([' '] ++ '\x7b' ::
      (' ' :: (element.signature ++ (element.clause ++ [';', ' ', '\x7d'])))) :=
    element.text_eq_head
  have hstop : (Capture.mk 11 ['A']).stop = Text.width "@interface A".toList := by decide
  have hopening : Text.width ("@interface A".toList ++ [' ']) = Text.width head := by decide
  have hopen : Statement.bodyOpen? subject.masked (Capture.mk 11 ['A']).stop =
      some (Text.width head) := by
    rw [h.masked, htext, hstop, ← hopening]
    exact Statement.bodyOpen?_append _ [' '] _ (by decide)
  have hbrace : Text.charAt? subject.masked (Text.width head) = some '\x7b' :=
    Text.charAt?_eq_some_iff.mpr ⟨head, _, h.masked.trans element.text_eq_head, rfl⟩
  have hboundary : Text.IsBoundary subject.masked (Capture.mk 11 ['A']).stop :=
    ⟨_, _, h.masked.trans htext, hstop.symm⟩
  have hkind : kindOf (headFound.text .kind) ≠ .record := by decide +kernel
  have hstarts : Statement.startsAt subject.masked headFound.start false = .ok true :=
    Statement.startsAt_zero _ _
  have hfindings : Yields (typeFindings subject scan headFound ⟨0, "@interface A".toList⟩
      ⟨11, ['A']⟩ (Text.width head)) fun findings => Holds (· = []) (scan.recordAll findings) := by
    refine (typeFindings_yields h.of hkind hboundary hbrace).with_allows
      (typeFindings_opens.mono ?_)
    rintro _ ⟨draft, members, rfl, hmembers, hname, hmethods, hopened⟩
    have hfirst : Holds (· = []) (scan.record (.classBody draft)) := by
      refine ⟨⟨draft, by rw [Scan.record, hs]; rfl, hname, hmethods⟩, ?_⟩
      rw [Scan.record, Scan.blockAt?, hs, hopened, List.lookup_cons, beq_self_eq_true]
      rfl
    exact hfirst.recordAll hmembers
  have hdeclaration : headFound.part? .declaration = some ⟨0, "@interface A".toList⟩ := rfl
  have hname : headFound.part? .name = some ⟨11, ['A']⟩ := rfl
  rw [findType, hdeclaration, hname]
  dsimp only
  refine Yields.bind_of_eq hstarts ?_
  rw [if_pos rfl, hopen]
  exact hfindings

/-- The match of the element records it behind the methods that are known. -/
theorem findMethod_holds (h : element.Shown subject)
    (hf : element.MethodMatch (Text.width front) found)
    (hfound : methodPattern.FoundIn subject.masked found) (hs : Holds P scan) :
    Yields (findMethod subject scan found) fun findings => Holds
      (fun methods => ∃ before method, methods = before ++ [method] ∧ P before ∧
        element.Read method) (scan.recordAll findings) := by
  obtain ⟨draft, hclasses, -⟩ := hs.class_eq
  have hclass : scan.classes[0]? = some draft := by rw [hclasses]; rfl
  refine (findMethod_element h hf hfound hs.block hclass).mono ?_
  rintro _ ⟨warnings, method, rfl, hwarnings, hread⟩
  rw [Scan.recordAll_append]
  exact (hs.recordAll (hwarnings.mono (by simp))).record_method
    fun methods hmethods => ⟨methods, method, rfl, hmethods, hread⟩

/-! ## The scan -/

/-- Packages and imports are no classes. -/
theorem classes_record (hs : scan.classes = []) {finding : Finding}
    (hf : finding.kind ∈ [.package, .imported]) : (scan.record finding).classes = [] := by
  cases finding with
  | package | imported => exact hs
  | block | classBody | label | abstractClass | method | property | function | error | warning =>
    exact absurd hf (by simp [Finding.kind])

theorem run_packages (hs : scan.classes = []) :
    Yields (Rule.run ⟨.masked, packagePattern, findPackage⟩ subject scan) (·.classes = []) :=
  Rule.run_of_finds (P := (·.classes = []))
    (fun _ _ _ => findPackage_among)
    (fun _ hs _ hf => classes_record hs (by simp [List.mem_singleton.mp hf]))
    (fun _ _ hf => findPackage_yields (Pattern.foundIn_of_mem_findAll hf)) hs

theorem run_imports (h : element.Shown subject) (hs : scan.classes = []) :
    Yields (Rule.run ⟨.full, importPattern, findImport⟩ subject scan) (·.classes = []) := by
  refine Rule.run_of_finds (P := (·.classes = []))
    (fun _ scan _ => @findImport_among _ scan _)
    (fun _ hs _ hf => classes_record hs (by simp [List.mem_singleton.mp hf]))
    (fun scan found hf => ?_) hs
  have hfound : importPattern.FoundIn subject.source.text found :=
    Pattern.foundIn_of_mem_findAll hf
  exact @findImport_yields _ _ scan _ h.of (h.full ▸ hfound)

/-- Fields are no methods. -/
theorem run_fields (h : element.Shown subject) (hs : Holds P scan) :
    Yields (Rule.run ⟨.masked, fieldPattern, findField⟩ subject scan) (Holds P) :=
  Rule.run_of_finds (P := Holds P)
    (fun _ _ _ => findField_among)
    (fun _ hs _ hf => hs.record (by simp [List.mem_singleton.mp hf]))
    (fun _ _ hf => findField_yields h.of (Pattern.foundIn_of_mem_findAll hf)) hs

/-- Where the default has no braces, nothing but the annotation is recorded as a class. -/
theorem run_types (h : element.Shown subject) (hbrace : '\x7b' ∉ element.value)
    (hs : scan.classes = []) :
    Yields (Rule.run ⟨.masked, typePattern, findType⟩ subject scan) (Holds (· = [])) := by
  obtain ⟨others, hall, hothers⟩ := element.exists_findAll_type
  rw [← h.masked] at hall
  refine Rule.run_of_findAll_cons hall (findType_head h hs) fun other ho scan => ?_
  have hfound : typePattern.FoundIn subject.masked other :=
    Pattern.foundIn_of_mem_findAll (hall ▸ List.mem_cons_of_mem _ ho)
  have hne : other.start ≠ Text.width front := by
    intro hstart
    obtain ⟨before, rest, d, ms, htext, hm, rfl⟩ := hfound
    rw [h.masked, text] at htext
    obtain ⟨-, hrest⟩ := Text.append_inj_of_width htext hstart.symm
    exact element.not_matches_type hrest.symm hm
  have hstarts := h.not_starts hbrace (by decide) (by decide) (by decide +kernel) hfound
    (hothers other ho) hne
  exact ⟨[], apply_of_not_starts (by simp [language]) rfl hstarts scan, rfl⟩

theorem run_methods (h : element.Shown subject) (hbrace : '\x7b' ∉ element.value)
    (hs : Holds (· = []) scan) :
    Yields (Rule.run ⟨.masked, methodPattern, findMethod⟩ subject scan)
      (Holds fun methods => ∃ method, methods = [method] ∧ element.ShownAs method) := by
  obtain ⟨found, others, hall, hmatch, hothers⟩ := element.exists_findAll_method
  rw [← h.masked] at hall
  have hfound : ∀ other ∈ found :: others, methodPattern.FoundIn subject.masked other :=
    fun other ho => Pattern.foundIn_of_mem_findAll (hall ▸ ho)
  refine Rule.run_of_findAll_cons hall ?_ fun other ho scan => ?_
  · refine (findMethod_holds h hmatch (hfound found List.mem_cons_self) hs).mono
      fun findings hheld => hheld.mono ?_
    rintro _ ⟨before, method, rfl, rfl, hread⟩
    rw [Read, if_neg hbrace] at hread
    exact ⟨method, rfl, hread⟩
  · have hlater := hothers other ho
    have hstarts := h.not_starts hbrace (by decide) (by decide) (by decide +kernel)
      (hfound other (List.mem_cons_of_mem _ ho)) (Nat.lt_of_le_of_lt (Nat.zero_le _) hlater)
      (Nat.ne_of_gt hlater)
    exact ⟨[], apply_of_not_starts (by simp [language]) rfl hstarts scan, rfl⟩

theorem scan_text (element : Element) (hbrace : '\x7b' ∉ element.value) :
    Yields (language.scan (language.subject element.text))
      (Holds fun methods => ∃ method, methods = [method] ∧ element.ShownAs method) := by
  have h := element.shown_subject
  generalize language.subject element.text = subject at h
  rw [scan_eq]
  refine (run_packages rfl).bind fun scan hs => ?_
  refine (run_imports h hs).bind fun scan hs => ?_
  refine (run_types h hbrace hs).bind fun scan hs => ?_
  refine (run_methods h hbrace hs).bind fun scan hs => ?_
  exact run_fields h hs

/-! ## Defaults with braces

Behind a brace of the default other declarations may be found.  The annotation keeps what it has,
unless there is another class. -/

/-- Something is known of the annotation, as long as it is the only class. -/
def Alone (P : List FunctionEntry → Prop) (scan : Scan) : Prop :=
  scan.classes.length ≤ 1 → Holds P scan

theorem Alone.record (hP : ∀ methods method, P methods → P (methods ++ [method]))
    (h : Alone P scan) {finding : Finding}
    (hf : finding.kind ∈ [.classBody, .warning, .property, .method, .function]) :
    Alone P (scan.record finding) := by
  intro hone
  cases finding with
  | classBody draft =>
    rw [Scan.record, List.length_append, List.length_singleton] at hone
    obtain ⟨only, hclasses, -⟩ := (h (by omega)).class_eq
    rw [hclasses] at hone
    exact absurd hone (by simp)
  | property index entry =>
    rw [Scan.record, List.length_modify] at hone
    exact (h hone).modify index (fun _ => rfl) fun _ hmethods => hmethods
  | method index entry =>
    rw [Scan.record, List.length_modify] at hone
    exact (h hone).modify index (fun _ => rfl) fun _ hmethods => hP _ _ hmethods
  | warning | function => exact ⟨(h hone).class_eq, (h hone).block⟩
  | package | imported | block | label | abstractClass | error =>
    exact absurd hf (by simp [Finding.kind])

theorem Alone.recordAll (hP : ∀ methods method, P methods → P (methods ++ [method]))
    (h : Alone P scan) {kinds : List Finding.Kind}
    (hkinds : kinds ⊆ [.classBody, .warning, .property, .method, .function])
    {findings : List Finding} (hf : Finding.Among kinds findings) :
    Alone P (scan.recordAll findings) :=
  Scan.recordAll_of_among (P := Alone P) (fun _ hs _ hk => hs.record hP (hkinds hk)) hf h

/-- A rule keeps it, whatever it finds of these kinds. -/
theorem Alone.foldlM (hP : ∀ methods method, P methods → P (methods ++ [method])) {rule : Rule}
    {kinds : List Finding.Kind} (hfinds : rule.Finds kinds)
    (hkinds : kinds ⊆ [.classBody, .warning, .property, .method, .function]) (founds : List Match)
    (h : Alone P scan) : Allows (founds.foldlM (rule.step subject) scan) (Alone P) :=
  Allows.foldlM (fun scan hs found _ => (hfinds subject scan found).map
    fun _ hf => hs.recordAll hP hkinds hf) h

/-- A method that is not abstract is among some methods. -/
def HasBody (methods : List FunctionEntry) : Prop := ∃ method ∈ methods, method.isAbstract = false

theorem HasBody.append {methods : List FunctionEntry} (h : HasBody methods)
    (method : FunctionEntry) : HasBody (methods ++ [method]) := by
  obtain ⟨other, hmem, hother⟩ := h
  exact ⟨other, List.mem_append_left _ hmem, hother⟩

theorem types_alone (h : element.Shown subject) (hs : scan.classes = []) :
    Allows (Rule.run ⟨.masked, typePattern, findType⟩ subject scan) (Alone fun _ => True) := by
  obtain ⟨others, hall, -⟩ := element.exists_findAll_type
  rw [← h.masked] at hall
  rw [Rule.run]
  show Allows ((typePattern.findAll subject.masked).foldlM _ scan) _
  rw [hall, List.foldlM_cons]
  refine ((findType_head h hs).allows.map fun _ hheld => hheld).bind fun scan hheld => ?_
  exact Alone.foldlM (fun _ _ _ => trivial) (fun _ _ _ => findType_among) (by simp) others
    fun _ => hheld.mono fun _ _ => trivial

/-- A default with braces gives the element a body. -/
theorem methods_alone (h : element.Shown subject) (hbrace : '\x7b' ∈ element.value)
    (hs : Alone (fun _ => True) scan) :
    Allows (Rule.run ⟨.masked, methodPattern, findMethod⟩ subject scan) (Alone HasBody) := by
  obtain ⟨found, others, hall, hmatch, -⟩ := element.exists_findAll_method
  rw [← h.masked] at hall
  have hfound : methodPattern.FoundIn subject.masked found :=
    Pattern.foundIn_of_mem_findAll (hall ▸ List.mem_cons_self)
  have hfirst : Allows (findMethod subject scan found) fun findings =>
      Alone HasBody (scan.recordAll findings) := by
    by_cases hone : scan.classes.length ≤ 1
    · refine (findMethod_holds h hmatch hfound (hs hone)).allows.mono fun findings hheld _ =>
        hheld.mono ?_
      rintro _ ⟨before, method, rfl, -, hread⟩
      rw [Read, if_pos hbrace] at hread
      exact ⟨method, by simp, hread⟩
    · have hnone : Alone HasBody scan := fun hle => absurd hle hone
      exact findMethod_among.mono fun findings hf =>
        hnone.recordAll (fun _ method hb => hb.append method) (by simp) hf
  rw [Rule.run]
  show Allows ((methodPattern.findAll subject.masked).foldlM _ scan) _
  rw [hall, List.foldlM_cons]
  refine (hfirst.map fun _ hheld => hheld).bind fun scan hheld => ?_
  exact Alone.foldlM (fun _ method hb => hb.append method) (fun _ _ _ => findMethod_among) (by simp)
    others hheld

theorem scan_alone (element : Element) (hbrace : '\x7b' ∈ element.value) :
    Allows (language.scan (language.subject element.text)) (Alone HasBody) := by
  have h := element.shown_subject
  generalize language.subject element.text = subject at h
  rw [scan_eq]
  refine (run_packages rfl).allows.bind fun scan hs => ?_
  refine (run_imports h hs).allows.bind fun scan hs => ?_
  refine (types_alone h hs).bind fun scan hs => ?_
  refine (methods_alone h hbrace hs).bind fun scan hs => ?_
  exact Alone.foldlM (fun _ method hb => hb.append method) (fun _ _ _ => findField_among) (by simp)
    _ hs

/-! ## The summary -/

/-- Where the default has braces, the only class has a method that is not abstract. -/
theorem hasBody_of_classes (element : Element) (hbrace : '\x7b' ∈ element.value)
    {entry : ClassEntry} (h : (Registry.java.parse element.text).classes = [entry]) :
    HasBody entry.methods := by
  rw [Extractor.parse] at h
  cases hextract : language.extract element.text with
  | error cause =>
    rw [show Registry.java.extract element.text = _ from hextract] at h
    exact absurd h (by simp [Summary.failure, Summary.empty])
  | ok summary =>
    rw [show Registry.java.extract element.text = _ from hextract] at h
    cases hscan : language.scan (language.subject element.text) with
    | error cause =>
      rw [Language.extract, hscan] at hextract
      cases hextract
    | ok scan =>
      obtain ⟨summary', hextract', hsummary⟩ := language.extract_classes hscan
      obtain rfl : summary = summary' := Except.ok.inj (hextract.symm.trans hextract')
      have hclasses : scan.classes.map Scan.finishClass = [entry] := hsummary.symm.trans h
      have hone : scan.classes.length ≤ 1 := by
        rw [← List.length_map (f := Scan.finishClass), hclasses]
        rfl
      obtain ⟨⟨draft, hdraft, -, method, hmem, habstract⟩, -⟩ :=
        scan_alone element hbrace scan hscan hone
      rw [hdraft] at hclasses
      obtain rfl : Scan.finishClass draft = entry := List.singleton_inj.mp hclasses
      exact ⟨method, List.mem_mergeSort.mpr hmem, habstract⟩

/-- An element of an annotation with a default is recorded as a method without a body, on the lines
up to its semicolon, if and only if the default has no braces: the first brace of a default is taken
for the one of a body. -/
theorem parse_element (element : Element) :
    (∃ entry method, (Registry.java.parse element.text).classes = [entry] ∧ entry.name = "A" ∧
      entry.methods = [method] ∧ element.ShownAs method) ↔ '\x7b' ∉ element.value := by
  constructor
  · rintro ⟨entry, method, hclasses, -, hmethods, hshown⟩ hbrace
    obtain ⟨other, hmem, hother⟩ := hasBody_of_classes element hbrace hclasses
    rw [hmethods, List.mem_singleton] at hmem
    rw [hmem, hshown.isAbstract] at hother
    cases hother
  · intro hbrace
    obtain ⟨scan, hscan, ⟨draft, hclasses, hname, method, hmethods, hshown⟩, -⟩ :=
      scan_text element hbrace
    obtain ⟨summary, hextract, hsummary⟩ := language.extract_classes hscan
    have hparse : Registry.java.parse element.text = summary := Extractor.parse_eq hextract
    rw [hparse, hsummary, hclasses]
    refine ⟨_, method, rfl, hname, ?_, hshown⟩
    rw [Scan.finishClass, hmethods, List.mergeSort_singleton]

/-- The element `int[] x() default {}` of an annotation is one. -/
example : ∃ element : Element, '\x7b' ∈ element.value ∧
    element.text = "@interface A \x7b int[] x() default \x7b\x7d; \x7d".toList :=
  ⟨{ type := {
       path := "int".toList, arguments := none, brackets := [([], [])]
       path_ne_nil := by decide, isPath := by decide +kernel, free := by decide
       gap := by simp, inner := by simp, blanks := by simp }
     name := "x".toList, value := ['\x7b', '\x7d'], isName := ⟨⟨'x', rfl, rfl⟩, by decide +kernel⟩
     unreserved := by decide, bare := by decide, whole := by decide, balanced := by decide },
    by decide, by decide⟩

end Element

end Java
end Outline
